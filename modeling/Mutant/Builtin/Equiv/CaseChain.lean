import Mutant.Builtin.CaseChain
import Mutant.Lib.HashChain
import Mutant.Security.Equiv.RecordFile

/-!
# What `caseChainRead` accepts

The events of a chain are read in order exactly when they are one chain from the start, numbered
from one, each naming the uid of the one before (`caseChainRead_eq_ok_iff`), in whatever order the
store returned them.
-/

namespace Mutant.Builtin

open List Mutant.Ledger
open Mutant.Security (Bytes Primitives text lengthPrefixed lengthPrefixed_append_inj)

variable {spec : CaseChainSpec} {P : Primitives} {e : CaseChainEvent} {ids : List Nat}
  {events rest byPrev out : List CaseChainEvent} {prev : Bytes} {n : Nat}

/-! ### The hash of an event -/

/-- Keys and values are strings the host language can hold. -/
def Short (props : Props) : Prop :=
  ∀ entry ∈ props.entries, entry.1.length < 2 ^ 64 ∧ entry.2.length < 2 ^ 64

theorem lengthPrefixed_ne_nil (s : Bytes) : lengthPrefixed s ≠ [] := by
  intro h
  have := congrArg length h
  cases Nat.eq_zero_of_add_eq_zero_right this

/-- Entries written with their lengths are told by the text. -/
theorem flatMap_entries_inj {l m : List (Bytes × Bytes)}
    (hl : ∀ entry ∈ l, entry.1.length < 2 ^ 64 ∧ entry.2.length < 2 ^ 64)
    (hm : ∀ entry ∈ m, entry.1.length < 2 ^ 64 ∧ entry.2.length < 2 ^ 64)
    (h : (l.flatMap fun entry => lengthPrefixed entry.1 ++ lengthPrefixed entry.2) =
      m.flatMap fun entry => lengthPrefixed entry.1 ++ lengthPrefixed entry.2) : l = m := by
  induction l generalizing m with
  | nil =>
    cases m with
    | nil => rfl
    | cons entry m =>
      rw [flatMap_nil, flatMap_cons, append_assoc] at h
      exact absurd (append_eq_nil_iff.mp h.symm).1 (lengthPrefixed_ne_nil _)
  | cons entry l ih =>
    cases m with
    | nil =>
      rw [flatMap_cons, append_assoc] at h
      exact absurd (append_eq_nil_iff.mp h).1 (lengthPrefixed_ne_nil _)
    | cons e' m =>
      rw [forall_mem_cons] at hl hm
      rw [flatMap_cons, flatMap_cons, append_assoc, append_assoc] at h
      obtain ⟨hkey, h⟩ := lengthPrefixed_append_inj hl.1.1 hm.1.1 h
      obtain ⟨hval, h⟩ := lengthPrefixed_append_inj hl.1.2 hm.1.2 h
      rw [Prod.ext hkey hval, ih hl.2 hm.2 h]

/-- The message of an event tells what it covers. -/
theorem caseChainMessage_inj {p q : Props} (hp : Short p) (hq : Short q)
    (h : caseChainMessage spec p = caseChainMessage spec q) :
    caseChainCovered spec p = caseChainCovered spec q := by
  refine flatMap_entries_inj (fun entry hent => hp entry (mem_of_mem_filter hent))
    (fun entry hent => hq entry (mem_of_mem_filter hent)) (append_cancel_left h)

theorem get?_of_covered_eq {p q : Props}
    (h : caseChainCovered spec p = caseChainCovered spec q) {key : Bytes}
    (hkey : key ≠ spec.key "uid") : KeyMap.get? key p.entries = KeyMap.get? key q.entries := by
  rw [← KeyMap.get?_filter hkey p.entries, ← KeyMap.get?_filter hkey q.entries]
  exact congrArg (KeyMap.get? key) h

theorem CaseChainSpec.key_ne (spec : CaseChainSpec) {a b : String} (h : text a ≠ text b) :
    spec.key a ≠ spec.key b := fun heq => h (append_cancel_left heq)

theorem caseChainUID_ne_nil (P : Primitives) (spec : CaseChainSpec) (props : Props) :
    caseChainUID P spec props ≠ [] := by
  intro h
  have := congrArg length h
  rw [caseChainUID, Hex.length_encode, Vector.length_toList] at this
  cases this

/-- The property maps of a ledger's chain. -/
def Recomputes (P : Primitives) (spec : CaseChainSpec) (props : Props) : Prop :=
  props.get (spec.key "uid") = caseChainUID P spec props

/-- Maps that recompute are told apart by their uids. -/
theorem eq_of_caseChainUID_eq {p q : Props} {maps : Props → Prop}
    (hfree : P.CollisionFree fun m => ∃ props, maps props ∧ m = caseChainMessage spec props)
    (hsh : ∀ props, maps props → Short props) (hp : maps p) (hq : maps q)
    (hpuid : Recomputes P spec p) (hquid : Recomputes P spec q)
    (h : caseChainUID P spec p = caseChainUID P spec q) : p = q := by
  have hmsg := hfree _ _ ⟨p, hp, rfl⟩ ⟨q, hq, rfl⟩ (Vector.toList_inj.mp (Hex.encode_inj h))
  have hcov := caseChainMessage_inj (hsh p hp) (hsh q hq) hmsg
  have hsome {props : Props} (hps : Recomputes P spec props) :
      KeyMap.get? (spec.key "uid") props.entries = some (caseChainUID P spec props) := by
    rw [Recomputes, Props.get] at hps
    cases hget : KeyMap.get? (spec.key "uid") props.entries with
    | none =>
      rw [hget] at hps
      exact absurd hps.symm (caseChainUID_ne_nil P spec props)
    | some v =>
      rw [hget] at hps
      exact congrArg some hps
  ext1 key
  by_cases hkey : key = spec.key "uid"
  · rw [hkey, hsome hpuid, hsome hquid, h]
  · exact get?_of_covered_eq hcov hkey

/-! ### Events -/

/-- What is read of a node that is an event. -/
structure CaseChainEvent.Sound (P : Primitives) (spec : CaseChainSpec) (e : CaseChainEvent) :
    Prop where
  seq : parseUint64 (e.props.get (spec.key "seq")) = some e.seq
  pos : e.seq ≠ 0
  uid : e.uid = e.props.get (spec.key "uid")
  recomputes : Recomputes P spec e.props
  prev : e.prev = e.props.get (spec.key "prev_uid")

theorem CaseChainEvent.Sound.uid_eq
    (h : e.Sound P spec) : e.uid = caseChainUID P spec e.props := h.uid.trans h.recomputes

theorem CaseChainEvent.Sound.seq_lt (h : e.Sound P spec) : e.seq < 2 ^ 64 := by
  have := h.seq
  rw [parseUint64, Option.filter_eq_some_iff] at this
  exact of_decide_eq_true this.2

variable {P : Primitives} {D : PropertyCodec} {g : CaseChainSource} {spec : CaseChainSpec}

theorem sound_of_caseChainEvent {node : Node} (h : caseChainEvent P D spec node = .ok e) :
    e.Sound P spec ∧ D.decode node.properties = some e.props := by
  revert h
  fun_cases caseChainEvent P D spec node with
  | case4 props hps seq hseq uid want huid =>
    rintro ⟨⟩
    rw [Option.filter_eq_some_iff] at hseq
    exact ⟨⟨hseq.1, of_decide_eq_true hseq.2, rfl, not_ne_iff.mp huid, rfl⟩, hps⟩
  | _ => rintro ⟨⟩

/-- The properties of a node the loop takes for an event. -/
def labelledProps (D : PropertyCodec) (g : CaseChainSource) (spec : CaseChainSpec) (id : Nat) :
    Option Props :=
  match g.getNode id with
  | .ok node => if spec.label ∈ node.labels then D.decode node.properties else none
  | .error _ => none

/-- What one turn of the loop gives. -/
theorem caseChainGet_eq_ok {id : Nat} {ev : Option CaseChainEvent}
    (h : caseChainGet P D g spec id = .ok ev) :
    (∀ e ∈ ev, e.Sound P spec) ∧ labelledProps D g spec id = ev.map (·.props) := by
  revert h
  fun_cases caseChainGet P D g spec id with
  | case1 _ hnode =>
    rintro ⟨⟩
    rw [labelledProps, hnode]
    exact ⟨nofun, rfl⟩
  | case2 => rintro ⟨⟩
  | case3 node hnode hlab =>
    intro h
    obtain ⟨e, he, rfl⟩ := Result.ok_of_map h
    obtain ⟨hsnd, hdec⟩ := sound_of_caseChainEvent he
    simp only [labelledProps, hnode, if_pos hlab]
    exact ⟨fun _ he' => Option.some.inj he' ▸ hsnd, hdec⟩
  | case4 node hnode hlab =>
    rintro ⟨⟩
    simp only [labelledProps, hnode, if_neg hlab]
    exact ⟨nofun, rfl⟩

/-- What the loop over a posting gives, when every turn of it succeeds. -/
theorem caseChainEvents_eq_ok_iff : caseChainEvents P D g spec ids = .ok events ↔
    (∀ id ∈ ids, ∃ ev, caseChainGet P D g spec id = .ok ev) ∧
      ids.filterMap (fun id => (caseChainGet P D g spec id).toOption.join) = events := by
  induction ids generalizing events with
  | nil => simp [caseChainEvents]
  | cons id ids ih =>
    rw [caseChainEvents, forall_mem_cons, filterMap_cons]
    cases caseChainGet P D g spec id with
    | error e => simp [Except.bind]
    | ok ev =>
      constructor
      · intro h
        obtain ⟨rest, hrest, rfl⟩ := Result.ok_of_map h
        obtain ⟨hok, rfl⟩ := ih.mp hrest
        cases ev <;> exact ⟨⟨⟨_, rfl⟩, hok⟩, rfl⟩
      · rintro ⟨⟨-, hok⟩, rfl⟩
        rw [ih.mpr ⟨hok, rfl⟩]
        cases ev <;> rfl

/-- What the loop over a posting gives. -/
theorem caseChainEvents_eq_ok (h : caseChainEvents P D g spec ids = .ok events) :
    (∀ e ∈ events, e.Sound P spec) ∧
      events.map (·.props) = ids.filterMap (labelledProps D g spec) := by
  obtain ⟨hok, rfl⟩ := caseChainEvents_eq_ok_iff.mp h
  constructor
  · intro e he
    obtain ⟨id, hid, he⟩ := mem_filterMap.mp he
    obtain ⟨ev, hev⟩ := hok id hid
    rw [hev] at he
    exact (caseChainGet_eq_ok hev).1 e he
  · rw [map_filterMap]
    refine filterMap_congr fun id hid => ?_
    obtain ⟨ev, hev⟩ := hok id hid
    rw [hev, (caseChainGet_eq_ok hev).2]
    rfl

/-- The loop over a posting asks the store for nodes only. -/
theorem caseChainEvents_posting (lookup : Bytes → Bytes → Except StoreError (List Nat))
    (ids : List Nat) : caseChainEvents P D { g with nodesByProperty := lookup } spec ids =
      caseChainEvents P D g spec ids := by
  induction ids with
  | nil => rfl
  | cons id ids ih =>
    rw [caseChainEvents, ih]
    rfl

/-- The order of a posting does not matter to the loop over it. -/
theorem caseChainEvents_perm {ids' : List Nat} (hperm : ids.Perm ids')
    (h : caseChainEvents P D g spec ids = .ok events) :
    ∃ events', caseChainEvents P D g spec ids' = .ok events' ∧ events.Perm events' := by
  obtain ⟨hok, rfl⟩ := caseChainEvents_eq_ok_iff.mp h
  exact ⟨_, caseChainEvents_eq_ok_iff.mpr ⟨fun id hid => hok id (hperm.mem_iff.mpr hid), rfl⟩,
    hperm.filterMap _⟩

/-! ### The walk -/

/-- The events are a chain from a uid on, numbered after `n`. -/
def CaseChainFrom : (prev : Bytes) → (n : Nat) → List CaseChainEvent → Prop
  | _, _, [] => True
  | prev, n, e :: events => e.prev = prev ∧ e.seq = n + 1 ∧ CaseChainFrom e.uid (n + 1) events

/-- A chain in two parts: the second starts at the last uid of the first. -/
theorem caseChainFrom_append {front : List CaseChainEvent} :
    CaseChainFrom prev n (front ++ rest) ↔ CaseChainFrom prev n front ∧
      CaseChainFrom ((front.getLast?.map (·.uid)).getD prev) (n + front.length) rest := by
  induction front generalizing prev n with
  | nil => simp [CaseChainFrom]
  | cons e front ih =>
    rw [cons_append, CaseChainFrom, ih, getLast?_cons]
    have hlast : (front.getLast?.map (·.uid)).getD e.uid =
        ((some (front.getLast?.getD e)).map (·.uid)).getD prev := by
      cases front.getLast? <;> rfl
    rw [hlast, Nat.add_assoc, Nat.add_comm 1]
    exact ⟨fun h => ⟨⟨h.1, h.2.1, h.2.2.1⟩, h.2.2.2⟩, fun h => ⟨h.1.1, h.1.2.1, h.1.2.2, h.2⟩⟩

/-- What a walk that ends has found. -/
theorem caseChainWalk_sound {turns : Nat} {res : List CaseChainEvent}
    (hsnd : ∀ e ∈ byPrev, e.Sound P spec) (hout : out.length < 2 ^ 64)
    (h : caseChainWalk turns byPrev prev out = .ok (res, rest)) :
    ∃ found, res = out ++ found ∧ (found ++ rest).Perm byPrev ∧
      CaseChainFrom prev out.length found := by
  fun_induction caseChainWalk turns byPrev prev out with
  | case1 | case2 =>
    cases h
    exact ⟨[], (append_nil _).symm, .refl _, trivial⟩
  | case3 | case5 => cases h
  | case4 turns byPrev prev out ev hnext hseq ih =>
    have hmem : ev ∈ byPrev.filter (·.prev = prev) := hnext ▸ mem_singleton_self ev
    have hpos := (hsnd ev (mem_of_mem_filter hmem)).pos
    obtain ⟨found, rfl, hperm, hch⟩ := ih (fun e he => hsnd e (mem_of_mem_filter he))
      (by rw [length_append, length_singleton]; omega) h
    rw [length_append] at hch
    refine ⟨ev :: found, by rw [append_assoc]; rfl, ?_, ?_⟩
    · have hspl := filter_append_perm (fun e : CaseChainEvent => decide (e.prev = prev)) byPrev
      rw [hnext] at hspl
      simp only [ne_eq, decide_not] at hperm
      exact (hperm.cons ev).trans hspl
    · exact ⟨by simpa using (mem_filter.mp hmem).2, by omega, hch⟩

/-- A chain that is there is found. -/
theorem caseChainWalk_complete {turns : Nat} {chain : List CaseChainEvent}
    (hturns : chain.length < turns) (hlen : out.length + chain.length < 2 ^ 64)
    (hperm : byPrev.Perm chain) (hch : CaseChainFrom prev out.length chain)
    (hnd : (chain.map (·.prev)).Nodup) :
    caseChainWalk turns byPrev prev out = .ok (out ++ chain, []) := by
  induction chain generalizing turns byPrev prev out with
  | nil =>
    obtain rfl := perm_nil.mp hperm
    cases turns with
    | zero => cases hturns
    | succ turns => simp [caseChainWalk]
  | cons ev chain ih =>
    cases turns with
    | zero => cases hturns
    | succ turns =>
      obtain ⟨hprev, hseq, hrest⟩ := hch
      rw [map_cons, nodup_cons] at hnd
      rw [length_cons] at hturns hlen
      have hoths : ∀ e ∈ chain, e.prev ≠ prev := by
        intro e he heq
        exact hnd.1 (mem_map.mpr ⟨e, he, heq.trans hprev.symm⟩)
      -- exactly one event follows `prev`
      have hnext : byPrev.filter (·.prev = prev) = [ev] := by
        rw [← perm_singleton]
        refine (hperm.filter _).trans ?_
        rw [filter_cons_of_pos (by simpa using hprev),
          filter_eq_nil_iff.mpr fun e he => by simpa using hoths e he]
      have hleft : (byPrev.filter (·.prev ≠ prev)).Perm chain := by
        refine (hperm.filter _).trans ?_
        rw [filter_cons_of_neg (by simpa using hprev),
          filter_eq_self.mpr fun e he => by simpa using hoths e he]
      rw [caseChainWalk, hnext]
      dsimp only
      rw [if_neg (by rw [not_ne_iff, hseq, Nat.mod_eq_of_lt (by omega)]),
        ih (by omega) (by rw [length_append, length_singleton]; omega) hleft
          (by rw [length_append]; exact hrest) hnd.2, append_assoc]
      rfl

section

variable (h : CaseChainFrom prev n events)

include h

/-- The events of a chain are numbered one after another. -/
theorem seq_of_caseChainFrom : events.map (·.seq) = range' (n + 1) events.length := by
  induction events generalizing prev n with
  | nil => rfl
  | cons e events ih =>
    obtain ⟨-, hseq, hrest⟩ := h
    rw [map_cons, hseq, ih hrest, length_cons, range'_succ]

/-- Every event names the start or the uid of another. -/
theorem prevs_sublist : (events.map (·.prev)).Sublist (prev :: events.map (·.uid)) := by
  induction events generalizing prev n with
  | nil => exact nil_sublist _
  | cons e events ih =>
    obtain ⟨rfl, -, hrest⟩ := h
    exact (ih hrest).cons_cons _

end

section Ideal

variable {maps : Props → Prop}
  (hfree : P.CollisionFree fun m => ∃ props, maps props ∧ m = caseChainMessage spec props)
  (hsh : ∀ props, maps props → Short props)
include hfree hsh

/-- No two events of a chain name the same one before them. -/
theorem nodup_prevs (hmaps : ∀ e ∈ events, maps e.props)
    (hsnd : ∀ e ∈ events, e.Sound P spec) (h : CaseChainFrom [] 0 events) :
    (events.map (·.prev)).Nodup := by
  refine (nodup_cons.mpr ⟨?_, ?_⟩ : ([] :: events.map (·.uid)).Nodup).sublist (prevs_sublist h)
  · intro hmem
    obtain ⟨e, he, hnil⟩ := mem_map.mp hmem
    exact caseChainUID_ne_nil P spec e.props ((hsnd e he).uid_eq.symm.trans hnil)
  · rw [nodup_iff_pairwise_ne, pairwise_map]
    have hseqs : events.Pairwise fun a b => a.seq < b.seq := by
      rw [← pairwise_map, seq_of_caseChainFrom h]
      exact pairwise_lt_range'
    refine hseqs.imp_of_mem fun {a b} ha hb hlt huid => ?_
    have hps := eq_of_caseChainUID_eq hfree hsh (hmaps a ha) (hmaps b hb)
      (hsnd a ha).recomputes (hsnd b hb).recomputes
      ((hsnd a ha).uid_eq.symm.trans (huid.trans (hsnd b hb).uid_eq))
    have hseq := (hsnd a ha).seq
    rw [hps, (hsnd b hb).seq] at hseq
    have := Option.some.inj hseq
    omega

/-- A posting is read exactly when its events are one chain from the start, and then in order. -/
theorem caseChainRead_eq_ok_iff {ch : Bytes}
    (hids : g.nodesByProperty (spec.key "chain") ch = .ok ids)
    (hmaps : ∀ id ∈ ids, ∀ props ∈ labelledProps D g spec id, maps props)
    (out : List CaseChainEvent) :
    caseChainRead P D g spec ch = .ok out ↔
      ∃ events, caseChainEvents P D g spec ids = .ok events ∧ out.Perm events ∧
        CaseChainFrom [] 0 out := by
  rw [caseChainRead, hids]
  constructor
  · intro h
    obtain ⟨events, hevs, h⟩ := Result.ok_of_bind h
    obtain ⟨⟨res, rest⟩, hwalk, h⟩ := Result.ok_of_bind h
    obtain ⟨hsnd, -⟩ := caseChainEvents_eq_ok hevs
    obtain ⟨found, rfl, hperm, hch⟩ := caseChainWalk_sound hsnd (by decide) hwalk
    dsimp only at h
    split_ifs at h with hlen
    cases h
    have hrest : rest = [] := by
      have := hperm.length_eq
      rw [length_append] at this
      exact eq_nil_of_length_eq_zero (by omega)
    rw [hrest, append_nil] at hperm
    exact ⟨events, hevs, hperm, hch⟩
  · rintro ⟨events, hevs, hperm, hch⟩
    obtain ⟨hsnd, hps⟩ := caseChainEvents_eq_ok hevs
    have hmaps' : ∀ e ∈ out, maps e.props := by
      intro e he
      have hmem : e.props ∈ events.map (·.props) := mem_map_of_mem (hperm.mem_iff.mp he)
      rw [hps] at hmem
      obtain ⟨id, hid, hlab⟩ := mem_filterMap.mp hmem
      exact hmaps id hid e.props hlab
    have hsnd' : ∀ e ∈ out, e.Sound P spec := fun e he => hsnd e (hperm.mem_iff.mp he)
    -- an event's number is its place, and fits in 64 bits
    have hlen : out.length < 2 ^ 64 := by
      by_contra hlong
      have hmem : out.length ∈ out.map (·.seq) := by
        rw [seq_of_caseChainFrom hch, mem_range'_1]
        omega
      obtain ⟨last, hlast, hseq⟩ := mem_map.mp hmem
      exact hlong (hseq ▸ (hsnd' last hlast).seq_lt)
    have hcnt := hperm.length_eq
    have hwalk := caseChainWalk_complete (show out.length < events.length + 1 by omega)
      (show ([] : List CaseChainEvent).length + out.length < 2 ^ 64 by rw [length_nil]; omega)
      hperm.symm hch (nodup_prevs hfree hsh hmaps' hsnd' hch)
    show (caseChainEvents P D g spec ids).bind _ = _
    rw [hevs]
    show (caseChainWalk (events.length + 1) events [] []).bind _ = _
    rw [hwalk]
    exact if_pos hcnt

/-- In whatever order the store returns a posting, its events are read in the order of the chain. -/
theorem caseChainRead_perm {ch : Bytes} {ids' : List Nat} (hperm : ids'.Perm ids)
    (hmaps : ∀ id ∈ ids, ∀ props ∈ labelledProps D g spec id, maps props)
    (out : List CaseChainEvent) :
    caseChainRead P D { g with nodesByProperty := fun _ _ => .ok ids' } spec ch = .ok out ↔
      ∃ events, caseChainEvents P D g spec ids = .ok events ∧ out.Perm events ∧
        CaseChainFrom [] 0 out := by
  let g' : CaseChainSource := { g with nodesByProperty := fun _ _ => .ok ids' }
  have hids : g'.nodesByProperty (spec.key "chain") ch = .ok ids' := rfl
  have hread := caseChainRead_eq_ok_iff (D := D) hfree hsh hids
    (fun id hid props hps => hmaps id (hperm.mem_iff.mp hid) props hps) out
  rw [caseChainEvents_posting] at hread
  refine hread.trans ?_
  constructor
  · rintro ⟨events, hevs, hout, hch⟩
    obtain ⟨events', hevs', hperm'⟩ := caseChainEvents_perm hperm hevs
    exact ⟨events', hevs', hout.trans hperm', hch⟩
  · rintro ⟨events, hevs, hout, hch⟩
    obtain ⟨events', hevs', hperm'⟩ := caseChainEvents_perm hperm.symm hevs
    exact ⟨events', hevs', hout.trans hperm', hch⟩

end Ideal

end Mutant.Builtin
