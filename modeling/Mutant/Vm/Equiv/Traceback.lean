import Mathlib.Data.List.Forall2
import Mathlib.Data.List.TakeWhile
import Mutant.Vm.Traceback

/-!
# Reading a collapsed traceback back

A stack falls into pieces, single frames and cycles (`Pieces`), and before it is cut the report is
the lines of the pieces (`Pieces.collapseFrom_eq`), which give back the frames up to `sameSite`
(`Renders.expand`).  The note of what the cut leaves out counts entries, and a note of a cycle is one
entry that stands for several frames; and the cut may fall between a note of a cycle and the frames
it is about.  `collapseCycles_accountsFor_iff` says where it may fall.
-/

namespace Mutant.Vm

open List

/-! ### What a report says -/

namespace TracebackEntry

/-- How many frames an entry stands for. -/
def stands : TracebackEntry → Nat
  | .frame _ => 1
  | .repeated length more => length * more
  | .omitted count => count

/-- What is read once an entry is: a note of a cycle is copies of the frames just before it. -/
def shownAfter (shown : List TracebackFrame) : TracebackEntry → List TracebackFrame
  | .frame f => shown ++ [f]
  | .repeated length more => shown ++ (replicate more (shown.drop (shown.length - length))).flatten
  | .omitted _ => shown

end TracebackEntry

open TracebackEntry

def counted (entries : List TracebackEntry) : Nat := (entries.map stands).sum

def expand (entries : List TracebackEntry) : List TracebackFrame := entries.foldl shownAfter []

def SameSites : List TracebackFrame → List TracebackFrame → Prop := Forall₂ fun f g => f.sameSite g

/-- The counts add up to the frames; and the entries give them back, but for as many of them as
the report says it omits. -/
def AccountsFor (out : List TracebackEntry) (frames : List TracebackFrame) : Prop :=
  counted out = frames.length ∧
    ((∀ n, .omitted n ∉ out) ∧ SameSites (expand out) frames ∨
      ∃ head n tail first cut last, out = head ++ .omitted n :: tail ∧
        frames = first ++ cut ++ last ∧ cut.length = n ∧
        SameSites (expand head) first ∧ SameSites (expand tail) last)

variable {entries : List TracebackEntry} {frames run copies : List TracebackFrame}

theorem counted_append (l l' : List TracebackEntry) : counted (l ++ l') = counted l + counted l' := by
  simp [counted]

theorem counted_cons (e : TracebackEntry) (l) :
    counted (e :: l) = stands e + counted l := sum_cons

theorem counted_frames : counted (run.map .frame) = run.length := by
  simp [counted, Function.comp_def, stands]

theorem foldl_shownAfter_frames (shown) : (run.map .frame).foldl shownAfter shown = shown ++ run := by
  induction run generalizing shown with
  | nil => simp
  | cons f run ih => simp [shownAfter, ih]

/-- Reading entries back gives at most as many frames as they stand for. -/
theorem length_foldl_shownAfter_le (entries shown) :
    (entries.foldl shownAfter shown).length ≤ shown.length + counted entries := by
  induction entries generalizing shown with
  | nil => simp [counted]
  | cons entry entries ih =>
    have hnext : (shownAfter shown entry).length ≤ shown.length + stands entry := by
      cases entry with
      | frame f => simp [shownAfter, stands]
      | repeated length more =>
        have hle : shown.length - (shown.length - length) ≤ length := by omega
        simpa [shownAfter, stands, Nat.mul_comm length] using Nat.mul_le_mul_left more hle
      | omitted count => simp [shownAfter]
    have := ih (shownAfter shown entry)
    rw [foldl_cons, counted_cons]
    omega

/-! ### The entries before the cut -/

/-- The entries give back the frames, cycle by cycle. -/
inductive Renders : List TracebackEntry → List TracebackFrame → Prop
  | nil : Renders [] []
  | frame {entries frames f g} : TracebackFrame.sameSite f g → Renders entries frames →
      Renders (.frame f :: entries) (g :: frames)
  | cycle {entries frames run copies more} : run ≠ [] → 2 ≤ more →
      SameSites (replicate (more + 1) run).flatten copies → Renders entries frames →
      Renders (run.map .frame ++ .repeated run.length more :: entries) (copies ++ frames)

theorem sameSites_refl : SameSites frames frames :=
  forall₂_same.mpr fun f _ => by simp [TracebackFrame.sameSite]

/-! ### The pieces of a stack -/

/-- The frames start with `repeats` runs of `length` that have the sites of the first of them. -/
def Copies (frames : List TracebackFrame) (length repeats : Nat) : Prop :=
  length * repeats ≤ frames.length ∧
    ∀ k < repeats, SameSites (frames.take length) ((frames.drop (length * k)).take length)

/-- The frames start with a cycle: the shortest run of at most eight frames that comes three times,
and how often it comes. -/
structure Cycle (frames : List TracebackFrame) (length repeats : Nat) : Prop where
  pos : 0 < length
  le : length ≤ maxCycleLength
  three : minCycleRepeats ≤ repeats
  copies : Copies frames length repeats
  most : ¬Copies frames length (repeats + 1)
  least : ∀ shorter, 0 < shorter → shorter < length → ¬Copies frames shorter minCycleRepeats

/-- How a stack falls into runs of frames, each with how often it comes: from the front, a cycle
where there is one, and else one frame. -/
inductive Pieces : List TracebackFrame → List (List TracebackFrame × Nat) → Prop
  | nil : Pieces [] []
  | frame {f rest pieces} : (∀ length repeats, ¬Cycle (f :: rest) length repeats) →
      Pieces rest pieces → Pieces (f :: rest) (([f], 1) :: pieces)
  | cycle {f rest length repeats pieces} : Cycle (f :: rest) length repeats →
      Pieces ((f :: rest).drop (length * repeats)) pieces →
      Pieces (f :: rest) (((f :: rest).take length, repeats) :: pieces)

/-- The lines of the pieces: the frames of each run, and a note where it comes more than once. -/
def entriesOf (pieces : List (List TracebackFrame × Nat)) : List TracebackEntry :=
  pieces.flatMap fun (run, repeats) =>
    run.map .frame ++ if repeats = 1 then [] else [.repeated run.length (repeats - 1)]

variable {length repeats : Nat} {pieces : List (List TracebackFrame × Nat)}

namespace Copies

theorem of_le {fewer : Nat} (h : Copies frames length repeats) (hle : fewer ≤ repeats) :
    Copies frames length fewer :=
  ⟨(Nat.mul_le_mul_left length hle).trans h.1, fun k hk => h.2 k (hk.trans_le hle)⟩

/-- Runs with the sites of the first are copies of it. -/
theorem sameSites (h : Copies frames length repeats) :
    SameSites (replicate repeats (frames.take length)).flatten (frames.take (length * repeats)) := by
  induction repeats with
  | zero => simpa using sameSites_refl
  | succ repeats ih =>
    rw [replicate_succ', flatten_append, flatten_singleton, Nat.mul_succ, take_add]
    exact rel_append (ih (h.of_le repeats.le_succ)) (h.2 repeats repeats.lt_succ_self)

end Copies

theorem runsMatch_iff {b : Nat} (h : b + length ≤ frames.length) : runsMatch frames b length = true ↔
    SameSites (frames.take length) ((frames.drop b).take length) := by
  rw [runsMatch, all_eq_true, SameSites, forall₂_iff_zip, and_iff_right (by simp; omega)]
  exact ⟨fun hall f g hmem => hall (f, g) hmem, fun hall p hmem => hall hmem⟩

/-- The inner loop of `cycleAt` counts the copies: there are not more of them than frames. -/
theorem repeatsAt_spec {fuel count : Nat} (hpos : 0 < length)
    (hfuel : frames.length < count + fuel) (h : Copies frames length count) :
    Copies frames length (repeatsAt frames length fuel count) ∧
      ¬Copies frames length (repeatsAt frames length fuel count + 1) := by
  fun_induction repeatsAt frames length fuel count with
  -- the fuel lasts for every frame
  | case1 count =>
    have := Nat.le_mul_of_pos_left count hpos
    exact absurd h.1 (by omega)
  | case2 fuel count next hstop =>
    refine ⟨h, fun hmore => ?_⟩
    have hle : next + length ≤ frames.length := hmore.1
    rw [(runsMatch_iff hle).mpr (hmore.2 count count.lt_succ_self)] at hstop
    simp only [Bool.not_true, Bool.or_false, decide_eq_true_eq] at hstop
    omega
  | case3 fuel count next hgo ih =>
    simp only [Bool.or_eq_true, decide_eq_true_eq, not_or, Bool.not_eq_true', Bool.not_eq_false,
      Nat.not_lt] at hgo
    refine ih (by omega) ⟨hgo.1, fun k hk => ?_⟩
    rcases Nat.lt_succ_iff_lt_or_eq.mp hk with hk | rfl
    · exact h.2 k hk
    · exact (runsMatch_iff hgo.1).mp hgo.2

theorem repeatsAt_one (hpos : 0 < length) (hle : length ≤ frames.length) :
    Copies frames length (repeatsAt frames length frames.length 1) ∧
      ¬Copies frames length (repeatsAt frames length frames.length 1 + 1) := by
  refine repeatsAt_spec hpos (by omega) ⟨by omega, fun k hk => ?_⟩
  obtain rfl : k = 0 := by omega
  exact sameSites_refl

/-- `cycleAt` looks for the first length that repeats often enough. -/
theorem cycleAt_eq_find :
    cycleAt frames = (((range' 1 (min maxCycleLength frames.length)).find? fun length =>
      minCycleRepeats ≤ repeatsAt frames length frames.length 1).map fun length =>
        (length, repeatsAt frames length frames.length 1)).getD (1, 1) := by
  have hlengths (n : Nat) :
      (range' 1 maxCycleLength).takeWhile (· ≤ n) = range' 1 (min maxCycleLength n) := by
    have hfew : ∀ n < 8, (range' 1 8).takeWhile (· ≤ n) = range' 1 (min 8 n) := by decide
    rcases Nat.lt_or_ge n maxCycleLength with h | h
    · exact hfew n h
    · rw [Nat.min_eq_left h, takeWhile_eq_self_iff.mpr]
      intro l hl
      exact decide_eq_true (Nat.le_trans (Nat.le_of_lt_succ (mem_range'_1.mp hl).2) h)
  rw [cycleAt, hlengths, find?_map]
  rfl

/-- What `cycleAt` finds is a cycle. -/
theorem cycle_of_cycleAt (h : minCycleRepeats ≤ (cycleAt frames).2) :
    Cycle frames (cycleAt frames).1 (cycleAt frames).2 := by
  rw [cycleAt_eq_find] at h ⊢
  cases hfind : (range' 1 (min maxCycleLength frames.length)).find? (fun length =>
      decide (minCycleRepeats ≤ repeatsAt frames length frames.length 1)) with
  | none =>
    rw [hfind] at h
    exact absurd (show 3 ≤ 1 from h) (by decide)
  | some length =>
    rw [hfind] at h
    obtain ⟨-, hmem, hleast⟩ := find?_range'_eq_some.mp hfind
    obtain ⟨hpos, hlt⟩ := mem_range'_1.mp hmem
    obtain ⟨hcopies, hmost⟩ := repeatsAt_one hpos (by omega : length ≤ frames.length)
    refine ⟨hpos, by dsimp; omega, h, hcopies, hmost, fun shorter hone hless hthree => ?_⟩
    have hfew := hleast shorter hone hless
    simp only [Bool.not_eq_eq_eq_not, Bool.not_true, decide_eq_false_iff_not, Nat.not_le] at hfew
    exact (repeatsAt_one hone (by dsimp at hless; omega)).2 (hthree.of_le hfew)

/-- There is one cycle at most, the one that `cycleAt` finds. -/
theorem Cycle.cycleAt_eq (h : Cycle frames length repeats) : cycleAt frames = (length, repeats) := by
  have hle : length ≤ frames.length :=
    (Nat.le_mul_of_pos_right length (Nat.zero_lt_of_lt h.three)).trans h.copies.1
  obtain ⟨hcopies, hmost⟩ := repeatsAt_one h.pos hle
  have heq : repeatsAt frames length frames.length 1 = repeats :=
    Nat.le_antisymm (Nat.not_lt.mp fun hlt => h.most (hcopies.of_le hlt))
      (Nat.not_lt.mp fun hlt => hmost (h.copies.of_le hlt))
  have hfind : (range' 1 (min maxCycleLength frames.length)).find? (fun length =>
      minCycleRepeats ≤ repeatsAt frames length frames.length 1) = some length := by
    rw [find?_range'_eq_some]
    refine ⟨decide_eq_true (heq ▸ h.three), mem_range'_1.mpr ⟨h.pos, ?_⟩, fun shorter hone hlt => ?_⟩
    · have := h.le
      omega
    · have hcount := (repeatsAt_one hone (by omega : shorter ≤ frames.length)).1
      simp only [Bool.not_eq_eq_eq_not, Bool.not_true, decide_eq_false_iff_not]
      exact fun hthree => h.least shorter hone hlt (hcount.of_le hthree)
  rw [cycleAt_eq_find, hfind, Option.map_some, Option.getD_some, heq]

namespace Pieces

/-- Every stack falls into pieces. -/
theorem exists_of (frames : List TracebackFrame) : ∃ pieces, Pieces frames pieces := by
  induction hn : frames.length using Nat.strong_induction_on generalizing frames with
  | _ n ih =>
    cases frames with
    | nil => exact ⟨[], .nil⟩
    | cons f rest =>
      -- a cycle is taken whole, so what is left is shorter
      by_cases hcycle : ∃ length repeats, Cycle (f :: rest) length repeats
      · obtain ⟨length, repeats, h⟩ := hcycle
        have hsome : 0 < length * repeats := Nat.mul_pos h.pos (Nat.zero_lt_of_lt h.three)
        obtain ⟨pieces, hpieces⟩ := ih ((f :: rest).drop (length * repeats)).length
          (by rw [length_drop]; simp at hn ⊢; omega) _ rfl
        exact ⟨_, .cycle h hpieces⟩
      · obtain ⟨pieces, hpieces⟩ := ih rest.length (by simp at hn; omega) rest rfl
        exact ⟨_, .frame (fun length repeats h => hcycle ⟨length, repeats, h⟩) hpieces⟩

/-- The loop of `collapseCycles` writes the lines of the pieces. -/
theorem collapseFrom_eq (h : Pieces frames pieces) {fuel : Nat} (hfuel : frames.length ≤ fuel) :
    collapseFrom fuel frames = entriesOf pieces := by
  induction h generalizing fuel with
  | nil => cases fuel <;> rfl
  | @frame f rest pieces hnone hpieces ih =>
    obtain ⟨fuel, rfl⟩ := Nat.exists_eq_add_of_le' (Nat.le_trans (Nat.succ_pos _) hfuel)
    have hfew : (cycleAt (f :: rest)).2 < minCycleRepeats :=
      Nat.not_le.mp fun hmany => hnone _ _ (cycle_of_cycleAt hmany)
    simp only [collapseFrom, if_pos hfew, ih (Nat.le_of_succ_le_succ hfuel)]
    rfl
  -- the shortest cycle is the one the code finds
  | @cycle f rest length repeats pieces h hpieces ih =>
    have hthree : 3 ≤ repeats := h.three
    have hsome : 0 < length * repeats := Nat.mul_pos h.pos (by omega)
    obtain ⟨fuel, rfl⟩ := Nat.exists_eq_add_of_le' (Nat.le_trans (Nat.succ_pos _) hfuel)
    have hrun : ((f :: rest).take length).length = length :=
      length_take_of_le ((Nat.le_mul_of_pos_right length (by omega)).trans h.copies.1)
    have hrest : collapseFrom fuel ((f :: rest).drop (length * repeats)) = entriesOf pieces :=
      ih (by rw [length_drop]; omega)
    simp only [collapseFrom, h.cycleAt_eq, if_neg (Nat.not_lt.mpr h.three), hrest]
    simp [entriesOf, hrun, show repeats ≠ 1 by omega]

/-- The lines of the pieces render the frames. -/
theorem renders (h : Pieces frames pieces) : Renders (entriesOf pieces) frames := by
  induction h with
  | nil => exact .nil
  | frame _ _ ih => exact .frame (by simp [TracebackFrame.sameSite]) ih
  | @cycle f rest length repeats pieces h _ ih =>
    obtain ⟨more, rfl⟩ := Nat.exists_eq_add_of_le' (Nat.one_le_of_lt h.three)
    have hmore : 2 ≤ more := Nat.le_of_succ_le_succ h.three
    have hrun : (f :: rest).take length ≠ [] := by simp [h.pos.ne']
    have hlines := Renders.cycle hrun hmore h.copies.sameSites ih
    rw [take_append_drop] at hlines
    simpa [entriesOf, show more ≠ 0 by omega] using hlines

end Pieces

namespace Renders

theorem counted_eq (h : Renders entries frames) : counted entries = frames.length := by
  induction h with
  | nil => rfl
  | frame _ _ ih => rw [counted_cons, ih, stands, length_cons, Nat.add_comm]
  | @cycle _ _ run _ more _ _ hcps _ ih =>
    rw [counted_append, counted_frames, counted_cons, ih, stands, length_append, ← hcps.length_eq]
    simp [Nat.succ_mul, Nat.mul_comm run.length]
    omega

theorem sameSites (h : Renders entries frames) (shown) :
    ∃ told, entries.foldl shownAfter shown = shown ++ told ∧ SameSites told frames := by
  induction h generalizing shown with
  | nil => exact ⟨[], by simp, .nil⟩
  | @frame _ _ f _ hsame _ ih =>
    obtain ⟨told, hread, htold⟩ := ih (shown ++ [f])
    exact ⟨f :: told, by simpa [shownAfter] using hread, .cons hsame htold⟩
  | @cycle _ _ run _ more _ _ hcps _ ih =>
    obtain ⟨told, hread, htold⟩ := ih (shown ++ (replicate (more + 1) run).flatten)
    refine ⟨_, ?_, rel_append hcps htold⟩
    rw [foldl_append, foldl_shownAfter_frames, foldl_cons, ← append_assoc, ← hread]
    simp [shownAfter, replicate_succ]

theorem expand (h : Renders entries frames) : SameSites (expand entries) frames := by
  obtain ⟨told, hread, htold⟩ := h.sameSites []
  rwa [Vm.expand, hread]

theorem counted_drop {first last k} (h : Renders entries (first ++ last))
    (htake : Renders (entries.take k) first) : counted (entries.drop k) = last.length := by
  have hcnt := h.counted_eq
  rw [← take_append_drop k entries, counted_append, htake.counted_eq, length_append] at hcnt
  exact Nat.add_left_cancel hcnt

theorem of_frames (h : SameSites run copies) : Renders (run.map .frame) copies := by
  induction h with
  | nil => exact .nil
  | cons hsame _ ih => exact .frame hsame ih

end Renders

/-! ### Where a note is -/

/-- A note of a cycle that is not among the first `k` entries has its frames after them as well. -/
def Kept (entries : List TracebackEntry) (k : Nat) : Prop :=
  ∀ front length more back, entries = front ++ .repeated length more :: back →
    front.length < k ∨ k + length ≤ front.length

/-- A cut after `pre` keeps what it keeps of the rest. -/
theorem kept_append_iff (pre entries : List TracebackEntry) (k : Nat) :
    Kept (pre ++ entries) (pre.length + k) ↔ Kept entries k := by
  constructor
  · rintro h front length more back rfl
    have := h (pre ++ front) length more back (append_assoc ..).symm
    rw [length_append] at this
    omega
  · intro h front length more back heq
    obtain ⟨rest, rfl, hrest⟩ | ⟨_ | ⟨_, rest⟩, rfl, hnote⟩ := append_eq_append_iff.mp heq
    · have := h rest length more back hrest
      rw [length_append]
      omega
    · have := h [] length more back hnote.symm
      simp at this ⊢
      omega
    · simp
      omega

/-- Every note of the whole report has its frames before it. -/
theorem Renders.kept_zero (h : Renders entries frames) : Kept entries 0 := by
  induction h with
  | nil => simp [Kept]
  | frame _ _ ih =>
    intro front length more back heq
    cases front with
    | nil => cases heq
    | cons entry front =>
      have := ih front length more back (cons.inj heq).2
      rw [length_cons]
      omega
  | cycle _ _ _ _ ih =>
    intro front length more back heq
    obtain ⟨_ | ⟨_, rest⟩, rfl, hrest⟩ | ⟨_ | ⟨_, rest⟩, hrun, hnote⟩ := append_eq_append_iff.mp heq
    · cases hrest
      simp
    · have := ih rest length more back (cons.inj hrest).2
      simp
      omega
    · cases hnote
      have := congrArg List.length hrun
      simp at this ⊢
      omega
    · -- A frame is not a note.
      cases hnote
      have := hrun ▸ mem_append_right front mem_cons_self
      simp at this

/-- A cut renders the frames before it; and either those after it too, or a note has lost frames. -/
theorem Renders.split (h : Renders entries frames) (k) :
    ∃ first last, frames = first ++ last ∧ Renders (entries.take k) first ∧
      (Kept entries k ∧ Renders (entries.drop k) last ∨
        ¬Kept entries k ∧ ∃ run length more rest, run.length < length ∧
          entries.drop k = map .frame run ++ .repeated length more :: rest) := by
  induction h generalizing k with
  | nil => exact ⟨[], [], rfl, by simpa using .nil, .inl ⟨by simp [Kept], by simpa using .nil⟩⟩
  | @frame entries frames f g hsame hents ih =>
    cases k with
    | zero => exact ⟨[], _, rfl, .nil, .inl ⟨(hents.frame hsame).kept_zero, .frame hsame hents⟩⟩
    | succ k =>
      obtain ⟨first, last, rfl, htake, hdrop⟩ := ih k
      have hkept := kept_append_iff [.frame f] entries k
      rw [singleton_append, length_singleton, Nat.add_comm] at hkept
      exact ⟨g :: first, last, rfl, .frame hsame htake, by rw [hkept]; exact hdrop⟩
  | @cycle entries frames run copies more hrun hmore hcps hents ih =>
    have hcycle := Renders.cycle hrun hmore hcps hents
    rcases Nat.eq_zero_or_pos k with rfl | hpos
    · exact ⟨[], _, rfl, .nil, .inl ⟨hcycle.kept_zero, hcycle⟩⟩
    rcases Nat.lt_or_ge run.length k with hk | hk
    · obtain ⟨k, rfl⟩ := Nat.exists_eq_add_of_lt hk
      obtain ⟨first, last, rfl, htake, hdrop⟩ := ih k
      have hkept := kept_append_iff (run.map .frame ++ [.repeated run.length more]) entries k
      rw [append_assoc, singleton_append, length_append, length_map, length_singleton,
        Nat.add_right_comm] at hkept
      refine ⟨copies ++ first, last, by simp, ?_, ?_⟩
      · simpa [take_append, take_of_length_le, Nat.add_assoc] using
          Renders.cycle hrun hmore hcps htake
      · rw [hkept]
        simpa [drop_append, drop_of_length_le, Nat.add_assoc] using hdrop
    · -- The note is after the cut and the first of its frames is before it.
      refine ⟨copies.take k, copies.drop k ++ frames, by simp [← append_assoc], ?_, .inr ⟨?_,
        run.drop k, run.length, more, entries, ?_, by simp [drop_append, hk]⟩⟩
      · have := Renders.of_frames (forall₂_take k hcps)
        simpa [take_append, hk, replicate_succ] using this
      · intro hkept
        have := hkept (run.map .frame) run.length more entries rfl
        rw [length_map] at this
        omega
      · have := length_pos_iff.mpr hrun
        rw [length_drop]
        omega

/-! ### The cut -/

/-- The entries that are not shown, and those that are shown after them. -/
def omittedEntries (entries : List TracebackEntry) : List TracebackEntry :=
  (entries.take (entries.length - 10)).drop 30

def lastEntries (entries : List TracebackEntry) : List TracebackEntry :=
  entries.drop (entries.length - 10)

theorem length_lastEntries (h : 40 < entries.length) : (lastEntries entries).length = 10 := by
  rw [lastEntries, length_drop]
  omega

theorem take_append_omittedEntries (h : 40 < entries.length) :
    entries.take 30 ++ (omittedEntries entries ++ lastEntries entries) = entries := by
  have htake : (entries.take (entries.length - 10)).take 30 = entries.take 30 := by
    rw [take_take, Nat.min_eq_left (by omega)]
  rw [← append_assoc, ← htake, omittedEntries, take_append_drop, lastEntries, take_append_drop]

theorem truncateEntries_long (h : ¬entries.length ≤ 40) :
    truncateEntries entries =
      entries.take 30 ++ .omitted (omittedEntries entries).length :: lastEntries entries := by
  have hlen : (omittedEntries entries).length = entries.length - 30 - 10 := by
    simp only [omittedEntries, length_drop, length_take]
    omega
  rw [hlen]
  exact if_neg h

/-- What a note of a cycle counts. -/
def Told : TracebackEntry → Prop
  | .frame _ => True
  | .repeated length more => 0 < length ∧ 2 ≤ more
  | .omitted _ => False

theorem Renders.told (h : Renders entries frames) : ∀ entry ∈ entries, Told entry := by
  induction h with
  | nil => nofun
  | frame _ _ ih => exact forall_mem_cons.mpr ⟨trivial, ih⟩
  | cycle hrun hmore _ _ ih =>
    refine forall_mem_append.mpr ⟨by simp [Told], forall_mem_cons.mpr ⟨?_, ih⟩⟩
    exact ⟨length_pos_iff.mpr hrun, hmore⟩

/-- Entries stand for one frame each exactly when none of them is a note of a cycle. -/
theorem counted_eq_length_iff (htold : ∀ e ∈ entries, Told e) :
    entries.length ≤ counted entries ∧
      (counted entries = entries.length ↔ ∀ length more, .repeated length more ∉ entries) := by
  induction entries with
  | nil => simp [counted]
  | cons e entries ih =>
    obtain ⟨hent, hents⟩ := forall_mem_cons.mp htold
    obtain ⟨hle, hiff⟩ := ih hents
    rw [counted_cons, length_cons]
    cases e with
    | frame f =>
      simp only [stands, mem_cons, reduceCtorEq, false_or, ← hiff]
      omega
    | repeated length more =>
      have hstands : 1 * 2 ≤ stands (.repeated length more) := Nat.mul_le_mul hent.1 hent.2
      exact ⟨by omega, fun heq => by omega, fun hnone => absurd mem_cons_self (hnone length more)⟩
    | omitted count => cases hent

/-- A note that has too few frames before it gives back fewer than it counts. -/
theorem length_expand_lt {more : Nat} (rest : List TracebackEntry) (hmore : 2 ≤ more)
    (hlt : run.length < length) :
    (expand (run.map .frame ++ .repeated length more :: rest)).length <
      counted (run.map .frame ++ .repeated length more :: rest) := by
  have hrest := length_foldl_shownAfter_le rest (shownAfter run (.repeated length more))
  have hsh : more * run.length < more * length := Nat.mul_lt_mul_of_pos_left hlt (by omega)
  have : (shownAfter run (.repeated length more)).length = run.length + more * run.length := by
    simp [shownAfter, Nat.sub_eq_zero_of_le hlt.le]
  rw [counted_append, counted_cons, counted_frames, expand, foldl_append, foldl_shownAfter_frames,
    foldl_cons, nil_append, stands, Nat.mul_comm length]
  omega

/-- Each note is among the first thirty entries, or it and its frames are among the last ten, exactly
when no note is left out and the cut falls between no note and its frames. -/
theorem notes_shown_iff (hlong : 40 < entries.length) :
    (∀ front length more back, entries = front ++ .repeated length more :: back →
        front.length < 30 ∨ length + 1 + back.length ≤ 10) ↔
      (∀ length more, .repeated length more ∉ omittedEntries entries) ∧
        Kept entries (entries.length - 10) := by
  constructor
  -- a note before the last ten entries must be among the first thirty
  · intro h
    refine ⟨fun length more hmem => ?_, fun front length more back heq => ?_⟩
    · obtain ⟨front, back, hmiddle⟩ := append_of_mem hmem
      have hsplit := take_append_omittedEntries hlong
      rw [hmiddle, append_assoc, cons_append, ← append_assoc] at hsplit
      have := h _ length more _ hsplit.symm
      simp only [length_append, length_take, length_lastEntries hlong] at this
      omega
    · have := h front length more back heq
      simp only [heq, length_append, length_cons] at hlong ⊢
      omega
  · rintro ⟨hnone, hkept⟩ front length more back rfl
    have hlen : (front ++ .repeated length more :: back).length = front.length + (back.length + 1) :=
      length_append
    rcases hkept front length more back rfl with hlt | hle
    · by_contra hcut
      refine hnone length more ?_
      obtain ⟨k, hk⟩ := Nat.exists_eq_add_of_lt hlt
      rw [omittedEntries, hk, Nat.add_assoc, take_length_add_append,
        drop_append_of_le_length (by omega), take_succ_cons]
      exact mem_append_right _ mem_cons_self
    · omega

/-- A report accounts for every frame exactly when it is short enough to be shown whole, or what it
leaves out are frames alone and the entries after them start with no part of a cycle. -/
theorem accountsFor_truncateEntries_iff (h : Renders entries frames) :
    AccountsFor (truncateEntries entries) frames ↔ entries.length ≤ 40 ∨
      ∀ front length more back, entries = front ++ .repeated length more :: back →
        front.length < 30 ∨ length + 1 + back.length ≤ 10 := by
  by_cases hshort : entries.length ≤ 40
  · rw [show truncateEntries entries = entries from if_pos hshort]
    exact iff_of_true ⟨h.counted_eq, .inl ⟨fun n hn => h.told _ hn, h.expand⟩⟩ (.inl hshort)
  have hlong : 40 < entries.length := Nat.not_le.mp hshort
  rw [truncateEntries_long hshort, or_iff_right hshort, notes_shown_iff hlong]
  obtain ⟨most, last, rfl, hmost, hlast⟩ := h.split (entries.length - 10)
  obtain ⟨first, cut, rfl, hfirst, -⟩ := hmost.split 30
  have hcut : counted (omittedEntries entries) = cut.length := hmost.counted_drop hfirst
  have hend : counted (lastEntries entries) = last.length := h.counted_drop hmost
  rw [take_take, Nat.min_eq_left (by omega)] at hfirst
  have htold : ∀ part, part ⊆ entries → ∀ entry ∈ part, Told entry :=
    fun part hpart entry hentry => h.told entry (hpart hentry)
  have hmiddle := (counted_eq_length_iff (htold (omittedEntries entries)
    ((drop_sublist ..).trans (take_sublist ..)).subset)).2
  rw [AccountsFor, counted_append, counted_cons, hfirst.counted_eq, hend, stands, ← hmiddle]
  simp only [length_append]
  constructor
  · rintro ⟨hcount, horder⟩
    refine ⟨by omega, ?_⟩
    rcases horder with ⟨hno, -⟩ |
      ⟨head, n, tail, first', cut', last', hout, hframes, hn, hhead, htail⟩
    · exact absurd (mem_append_right _ mem_cons_self) (hno _)
    have hnot : ∀ part, part ⊆ entries → .omitted n ∉ part :=
      fun part hpart hmem => htold part hpart _ hmem
    obtain ⟨rfl, hsame, rfl⟩ := (append_cons_inj_of_notMem (hnot _ (take_subset ..))
      (hnot (lastEntries entries) (drop_subset ..))).mp hout
    cases hsame
    obtain ⟨hkept, -⟩ | ⟨-, run, length, more, rest, hlt, hpart⟩ := hlast
    · exact hkept
    -- The last entries would have to give back all the frames that they count.
    · have hlength := congrArg List.length hframes
      simp only [length_append, ← hhead.length_eq, hfirst.expand.length_eq] at hlength
      have hmore := (h.told (.repeated length more)
        (drop_subset (entries.length - 10) _ (hpart ▸ by simp))).2
      have hfew := length_expand_lt rest hmore hlt
      rw [← hpart] at hfew
      have := htail.length_eq
      unfold lastEntries at hend this
      omega
  · rintro ⟨hcount, hkept⟩
    obtain ⟨-, hlast⟩ | ⟨hnot, -⟩ := hlast
    · exact ⟨by omega, .inr ⟨_, _, _, first, cut, last, rfl, rfl, by omega, hfirst.expand,
        hlast.expand⟩⟩
    · exact absurd hkept hnot

/-- A stack falls into pieces, and its report accounts for every frame exactly when the pieces take at
most forty lines, or the note of each cycle is among the first thirty lines or it and the frames of
the cycle are among the last ten. -/
theorem collapseCycles_accountsFor_iff (frames : List TracebackFrame) :
    (∃ pieces, Pieces frames pieces) ∧ ∀ pieces, Pieces frames pieces →
      (AccountsFor (collapseCycles frames) frames ↔ (entriesOf pieces).length ≤ 40 ∨
        ∀ front length more back, entriesOf pieces = front ++ .repeated length more :: back →
          front.length < 30 ∨ length + 1 + back.length ≤ 10) := by
  refine ⟨Pieces.exists_of frames, fun pieces h => ?_⟩
  rw [collapseCycles, collapsed, h.collapseFrom_eq (Nat.le_refl _)]
  exact accountsFor_truncateEntries_iff h.renders

/-- Thirty calls, ten of one function to itself, and twenty more. -/
def deepCalls : List TracebackFrame :=
  (range 30 ++ replicate 10 30 ++ range' 31 20).map fun line : Nat => { line := line }

/-- The twelve entries that are left out stand for twenty frames. -/
theorem not_accountsFor_deepCalls : ¬AccountsFor (collapseCycles deepCalls) deepCalls := by
  rintro ⟨hcount, -⟩
  exact absurd hcount (by decide +kernel)

end Mutant.Vm
