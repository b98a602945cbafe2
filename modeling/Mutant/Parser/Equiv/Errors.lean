import Mathlib.Tactic.SplitIfs
import Mutant.Parser.Errors
/-!
# Which errors are shown at their own position

The two lists of a parser are the texts and the errors of its messages (`Errors.of`), so they pair by
index as long as no message with an error comes after one without (`Aligned`).  That is so exactly
when no hole with errors is parsed after the limit has been noted.

* `Event.record_of`: the two lists come from one list of messages;
* `aligned_messagesAll_iff`: when they pair by index.
-/

namespace Mutant.Parser

open List Mutant.Ast

variable {ms : List Message} {m : Message} {es : List Event}

/-! ### Two lists for one -/

/-- The lists that hold these messages. -/
def Errors.of (ms : List Message) : Errors := ⟨ms.map (·.text), ms.filterMap (·.error)⟩

mutual

/-- Recording an event in the two lists is recording it in the messages. -/
theorem Event.record_of (ms : List Message) : ∀ e : Event, e.record (.of ms) = .of (e.messages ms)
  | .raised tok msg => by
    unfold Event.record Event.messages Errors.appendError Errors.of
    simp only [List.length_map]
    split_ifs <;> simp
  | .hole inside => by
    have hins := recordAll_of [] inside
    unfold Event.record Event.messages
    rw [show ({} : Errors) = .of [] from rfl, hins]
    simp [Errors.takeOver, Errors.of, Function.comp_def, List.filterMap_map]

theorem recordAll_of (ms : List Message) :
    ∀ es : List Event, recordAll (.of ms) es = .of (messagesAll ms es)
  | [] => rfl
  | e :: es => by
    rw [recordAll, messagesAll, e.record_of ms]
    exact recordAll_of _ es

end

/-! ### Alignment -/

/-- No message with an error comes after one without. -/
def Aligned (ms : List Message) : Prop := ms.Pairwise fun m m' => m.error = none → m'.error = none

instance (ms : List Message) : Decidable (Aligned ms) :=
  inferInstanceAs (Decidable (List.Pairwise _ _))

theorem length_positioned_lt (path : String) {start : Position} (h : start.isValid = true)
    (msg : String) : msg.length < (positioned path start msg).length := by
  have hcolon : ": ".length = 2 := rfl
  unfold positioned
  rw [h]
  simp only [Bool.not_true, Bool.false_eq_true, if_false]
  split_ifs <;> simp only [String.length_append] <;> omega

/-- The two lists pair by index exactly when the messages are aligned. -/
theorem positionedErrors_of_iff {ms : List Message} (path : String)
    (hpl : ∀ m ∈ ms, ∀ error, m.error = some error → error.range.start.isValid = true) :
    (Errors.of ms).positionedErrors path = ms.map (·.show path) ↔ Aligned ms := by
  unfold Errors.positionedErrors Errors.of
  induction ms with
  | nil => simp [Aligned]
  | cons m ms ih =>
    have ih := ih (forall_mem_cons.mp hpl).2
    obtain ⟨text, error⟩ := m
    rw [Aligned, pairwise_cons]
    simp only [map_cons, mapIdx_cons, cons.injEq]
    cases error with
    | some error =>
      unfold Aligned at ih
      simpa [Message.show] using ih
    | none =>
      rw [filterMap_cons_none rfl]
      cases herrors : ms.filterMap (·.error) with
      | nil =>
        have hnone : ∀ m ∈ ms, m.error = none := filterMap_eq_nil_iff.mp herrors
        have hshow : ms.map (·.show path) = ms.map (·.text) :=
          map_congr_left fun m hm => by rw [Message.show, hnone m hm]
        rw [hshow]
        refine iff_of_true ⟨rfl, ?_⟩ ⟨fun m hm _ => hnone m hm, ?_⟩
        · simp [mapIdx_eq_zipIdx_map]
        · exact pairwise_of_forall_mem_list fun _ _ m hm _ => hnone m hm
      | cons error errors =>
        -- the text without an error is shown at the position of the next one
        have hmem : error ∈ ms.filterMap (·.error) := by simp [herrors]
        obtain ⟨m, hm, herr⟩ := mem_filterMap.mp hmem
        have hlt := length_positioned_lt path (hpl m (mem_cons_of_mem _ hm) error herr) text
        refine iff_of_false (fun h => ?_) fun h => ?_
        · have hhead : positioned path error.range.start text = text := h.1
          rw [hhead] at hlt
          exact Nat.lt_irrefl _ hlt
        · rw [h.1 m hm rfl] at herr
          cases herr

/-! ### The messages of a parse -/

/-- What holds of the messages of a parser at any time. -/
structure Sound (ms : List Message) : Prop where
  limited : Limited ms → maxParseErrors < ms.length
  error : ms ≠ [] → ∃ m ∈ ms, m.error ≠ none
  placed : ∀ m ∈ ms, ∀ error, m.error = some error → error.range.start.isValid = true

theorem sound_nil : Sound [] := ⟨nofun, nofun, nofun⟩

/-- What holds of the messages of a parser holds when another's are added. -/
theorem Sound.append {ms' : List Message} (h : Sound ms) (h' : Sound ms') : Sound (ms ++ ms') where
  limited := by
    rintro ⟨m, hm, hnone⟩
    rw [length_append]
    rcases mem_append.mp hm with hm | hm
    · exact Nat.lt_of_lt_of_le (h.limited ⟨m, hm, hnone⟩) (Nat.le_add_right _ _)
    · exact Nat.lt_of_lt_of_le (h'.limited ⟨m, hm, hnone⟩) (Nat.le_add_left _ _)
  error hne := by
    by_cases hms : ms = []
    · obtain ⟨m, hm, herr⟩ := h'.error (by simpa [hms] using hne)
      exact ⟨m, mem_append_right _ hm, herr⟩
    · obtain ⟨m, hm, herr⟩ := h.error hms
      exact ⟨m, mem_append_left _ hm, herr⟩
  placed m hm := (mem_append.mp hm).elim (h.placed m) (h'.placed m)

/-- And when they are said to be inside a hole. -/
theorem Sound.inHole (h : Sound ms) :
    Sound (ms.map fun m => { m with text := insideHole m.text }) where
  limited := by
    rintro ⟨_, hmem, hnone⟩
    obtain ⟨m, hm, rfl⟩ := mem_map.mp hmem
    rw [length_map]
    exact h.limited ⟨m, hm, hnone⟩
  error hne := by
    obtain ⟨m, hm, herr⟩ := h.error (by simpa using hne)
    exact ⟨_, mem_map_of_mem hm, herr⟩
  placed _ hmem := by
    obtain ⟨m, hm, rfl⟩ := mem_map.mp hmem
    exact h.placed m hm

/-- And when one message is added, without an error only at the limit. -/
theorem Sound.snoc (h : Sound ms) (hlimited : m.error = none → maxParseErrors ≤ ms.length)
    (hpl : ∀ error, m.error = some error → error.range.start.isValid = true) :
    Sound (ms ++ [m]) where
  limited := by
    rintro ⟨d, hd, hnone⟩
    rw [length_append]
    rcases mem_append.mp hd with hd | hd
    · exact Nat.lt_add_right _ (h.limited ⟨d, hd, hnone⟩)
    · rw [mem_singleton.mp hd] at hnone
      exact Nat.lt_succ_of_le (hlimited hnone)
  error _ := by
    -- the note of the limit comes after errors
    by_cases hm : m.error = none
    · have hne : ms ≠ [] := ne_nil_of_length_pos (Nat.lt_of_lt_of_le (by decide) (hlimited hm))
      obtain ⟨d, hd, herr⟩ := h.error hne
      exact ⟨d, mem_append_left _ hd, herr⟩
    · exact ⟨m, by simp, hm⟩
  placed d hd := by
    rcases mem_append.mp hd with hd | hd
    · exact h.placed d hd
    · exact mem_singleton.mp hd ▸ hpl

mutual

/-- Every event keeps it. -/
theorem Event.sound {ms : List Message} (h : Sound ms) : ∀ e : Event, Sound (e.messages ms)
  | .raised tok msg => by
    unfold Event.messages
    split_ifs with hlim heq
    · exact h.snoc (fun _ => hlim) nofun
    · exact h
    · refine h.snoc nofun ?_
      rintro _ ⟨⟩
      exact tok.valid
  | .hole inside => by
    exact h.append (sound_messagesAll sound_nil inside).inHole

theorem sound_messagesAll {ms : List Message} (h : Sound ms) :
    ∀ es : List Event, Sound (messagesAll ms es)
  | [] => by
    exact h
  | e :: es => by
    exact sound_messagesAll (e.sound h) es

end

/-- Messages are only ever added. -/
theorem prefix_messagesAll (ms : List Message) (es : List Event) : ms <+: messagesAll ms es := by
  induction es generalizing ms with
  | nil =>
    exact prefix_refl ms
  | cons e es ih =>
    refine IsPrefix.trans ?_ (ih _)
    cases e with
    | raised tok msg =>
      unfold Event.messages
      split_ifs
      · exact prefix_append _ _
      · exact prefix_refl _
      · exact prefix_append _ _
    | hole inside =>
      exact prefix_append _ _

/-! ### Alignment over a parse -/

theorem aligned_append {ms' : List Message} : Aligned (ms ++ ms') ↔
    Aligned ms ∧ Aligned ms' ∧ (Limited ms → ∀ m ∈ ms', m.error = none) := by
  unfold Aligned Limited
  rw [pairwise_append]
  refine and_congr_right' (and_congr_right' ⟨?_, ?_⟩)
  · rintro h ⟨m, hm, hnone⟩ m' hm'
    exact h m hm m' hm' hnone
  · exact fun h m hm m' hm' hnone => h ⟨m, hm, hnone⟩ m' hm'

mutual

/-- An event keeps the lists aligned exactly when it is no hole with errors after the limit. -/
theorem Event.aligned_iff {ms : List Message} (h : Sound ms) (ha : Aligned ms) :
    ∀ e : Event, Aligned (e.messages ms) ↔ e.Orderly ms
  | .raised tok msg => by
    unfold Event.messages Event.Orderly
    refine iff_of_true ?_ trivial
    split_ifs with hlim heq
    · exact aligned_append.mpr ⟨ha, List.pairwise_singleton _ _, fun _ => by simp⟩
    · exact ha
    · refine aligned_append.mpr ⟨ha, List.pairwise_singleton _ _, fun hlimited => ?_⟩
      exact absurd (Nat.le_of_lt (h.limited hlimited)) hlim
  | .hole inside => by
    have hsnd := sound_messagesAll sound_nil inside
    have hins := aligned_messagesAll_iff sound_nil List.Pairwise.nil inside
    unfold Event.messages Event.Orderly
    rw [aligned_append, ← hins]
    simp only [ha, true_and]
    refine and_congr (by unfold Aligned; rw [List.pairwise_map]) (imp_congr_right fun _ => ?_)
    simp only [List.forall_mem_map]
    -- whatever a hole complains of, it complains of an error first
    refine ⟨fun hnone => ?_, fun hnil => by simp [hnil]⟩
    refine Classical.byContradiction fun hne => ?_
    obtain ⟨m, hm, herr⟩ := hsnd.error hne
    exact herr (hnone m hm)

/-- So does a sequence of events. -/
theorem aligned_messagesAll_iff {ms : List Message} (h : Sound ms) (ha : Aligned ms) :
    ∀ es : List Event, Aligned (messagesAll ms es) ↔ OrderlyAll ms es
  | [] => by
    exact iff_of_true ha trivial
  | e :: es => by
    have hstep := e.aligned_iff h ha
    rw [messagesAll, OrderlyAll, ← hstep]
    by_cases hrest : Aligned (e.messages ms)
    · rw [aligned_messagesAll_iff (e.sound h) hrest es]
      simp only [hrest, true_and]
    · refine iff_of_false (fun hall => hrest ?_) fun hall => hrest hall.1
      exact List.Pairwise.sublist (prefix_messagesAll _ es).sublist hall

end

/-! ### Positioned errors -/

/-- Every message is shown at its own position exactly when no hole with errors is parsed after the
limit has been noted. -/
theorem positionedErrors_own_iff (path : String) (es : List Event) :
    (recordAll {} es).positionedErrors path = (messagesAll [] es).map (·.show path) ↔
      OrderlyAll [] es := by
  rw [show ({} : Errors) = .of [] from rfl, recordAll_of,
    positionedErrors_of_iff path (sound_messagesAll sound_nil es).placed,
    aligned_messagesAll_iff sound_nil Pairwise.nil]

/-- The closing bracket in the first column of a line. -/
def bracketAt (line : Nat) (h : 0 < line) : Token :=
  ⟨⟨line, 1, 3 * (line - 1)⟩, ⟨line, 2, 3 * (line - 1) + 1⟩, by simpa [Position.isValid] using h⟩

/-- `);` on each of 101 lines, then a template with a bracket in its hole. -/
def tooManyErrors : List Event :=
  (List.range 101).map (fun i => .raised (bracketAt (i + 1) (Nat.succ_pos i))
    "no prefix parse function for ) found") ++
  parseHole ⟨⟨102, 1, 303⟩, ⟨102, 7, 309⟩, rfl⟩ ⟨")", ⟨102, 4, 306⟩⟩
    (.expression [.raised ⟨⟨102, 4, 306⟩, ⟨102, 5, 307⟩, rfl⟩ "no prefix parse function for ) found"]
      false)

/-- The note about the limit is shown at the position of the error in the hole, and that error at
none. -/
theorem tooManyErrors_positionedErrors : (recordAll {} tooManyErrors).positionedErrors "" ≠
      (messagesAll [] tooManyErrors).map (·.show "") := by
  decide +kernel

end Mutant.Parser
