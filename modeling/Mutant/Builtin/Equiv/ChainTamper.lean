import Mutant.Builtin.Equiv.CaseChain

/-!
# Chains are tamper evident

An event of a chain that `chainAppend` built decides every event before it, wherever it is accepted
(`front_eq`).  So a chain that was changed, cut other than at its end, or added to other than after
its end, is refused (`caseChain_tamperEvident`).
-/

namespace Mutant.Builtin

open List Mutant.Ledger
open Mutant.Security (Bytes Primitives text)

variable {built : List Props}

variable {P : Primitives} {D : PropertyCodec} {g : CaseChainSource} {spec : CaseChainSpec}

/-! ### Chains as lists of property maps -/

/-- The uid an event names. -/
def prevUID (spec : CaseChainSpec) (props : Props) : Bytes := props.get (spec.key "prev_uid")

/-- Property maps that are a chain from the start. -/
structure IsRooted (P : Primitives) (spec : CaseChainSpec) (maps : List Props) : Prop where
  linked : HashChain.Linked (prevUID spec) (caseChainUID P spec) maps
  first : ∀ props ∈ maps.head?, prevUID spec props = []
  recomputes : ∀ props ∈ maps, Recomputes P spec props

theorem IsRooted.front {front rest : List Props} (h : IsRooted P spec (front ++ rest)) :
    IsRooted P spec front where
  linked := (HashChain.linked_append.mp h.linked).1
  first props hps := h.first props (by rw [head?_append, hps]; rfl)
  recomputes props hps := h.recomputes props (mem_append_left _ hps)

/-- The events of a sound chain are rooted at its start. -/
theorem isRooted_of_caseChainFrom {evs : List CaseChainEvent}
    (hsnd : ∀ e ∈ evs, e.Sound P spec) (h : CaseChainFrom [] 0 evs) :
    IsRooted P spec (evs.map (·.props)) := by
  have hfrom : ∀ prev n, CaseChainFrom prev n evs →
      HashChain.Linked (prevUID spec) (caseChainUID P spec) (evs.map (·.props)) ∧
        ∀ props ∈ (evs.map (·.props)).head?, prevUID spec props = prev := by
    clear h
    induction evs with
    | nil => exact fun _ _ _ => ⟨.nil, nofun⟩
    | cons e evs ih =>
      rintro prev n ⟨rfl, -, hrest⟩
      rw [forall_mem_cons] at hsnd
      obtain ⟨hlinked, hfst⟩ := ih hsnd.2 _ _ hrest
      constructor
      · rw [map_cons, HashChain.Linked, isChain_cons]
        exact ⟨fun props hps => (hfst props hps).trans hsnd.1.uid_eq, hlinked⟩
      · intro props hps
        cases hps
        exact hsnd.1.prev.symm
  obtain ⟨hlinked, hfst⟩ := hfrom [] 0 h
  exact ⟨hlinked, hfst, forall_mem_map.mpr fun e he => (hsnd e he).recomputes⟩

/-! ### Chains that were appended to -/

theorem caseChainUID_set_uid (props : Props) (v : Bytes) :
    caseChainUID P spec (props.set (spec.key "uid") v) = caseChainUID P spec props := by
  have hcov : caseChainCovered spec (props.set (spec.key "uid") v) =
      caseChainCovered spec props := KeyMap.filter_insert _ _ _
  rw [caseChainUID, caseChainUID, caseChainMessage, caseChainMessage, hcov]

/-- What an append says. -/
theorem chainAppend_eq (ch : Bytes) (head : Option CaseChainEvent) (id : Nat) (props : Props) :
    Recomputes P spec (chainAppend P spec ch head id props).props ∧
      caseChainUID P spec (chainAppend P spec ch head id props).props =
        (chainAppend P spec ch head id props).uid ∧
      prevUID spec (chainAppend P spec ch head id props).props = (head.map (·.uid)).getD [] := by
  have huid : caseChainUID P spec (chainAppend P spec ch head id props).props =
      (chainAppend P spec ch head id props).uid := caseChainUID_set_uid _ _
  refine ⟨?_, huid, ?_⟩
  · rw [Recomputes, huid]
    exact Props.get_set_self _ _ _
  · refine (Props.get_set_of_ne _ (spec.key_ne (by decide)) _).trans ?_
    exact Props.get_set_self _ _ _

theorem chainRun_append_singleton (ch : Bytes) (appends : List (Nat × Props))
    (append : Nat × Props) :
    chainRun P spec ch (appends ++ [append]) = chainRun P spec ch appends ++
      [chainAppend P spec ch (chainRun P spec ch appends).getLast? append.1 append.2] := by
  rw [chainRun, foldl_append]
  rfl

/-- A chain that was built is one from the start. -/
theorem isRooted_chainRun (ch : Bytes) (appends : List (Nat × Props)) :
    IsRooted P spec ((chainRun P spec ch appends).map (·.props)) ∧
      ∀ e ∈ chainRun P spec ch appends, caseChainUID P spec e.props = e.uid := by
  induction appends using reverseRecOn with
  | nil => exact ⟨⟨.nil, nofun, nofun⟩, nofun⟩
  | append_singleton appends append ih =>
    obtain ⟨hroot, huids⟩ := ih
    have hev := @chainAppend_eq P spec ch (chainRun P spec ch appends).getLast? append.1
      append.2
    obtain ⟨hrecomp, huid, hprev⟩ := hev
    rw [chainRun_append_singleton, map_append, map_singleton]
    refine ⟨⟨HashChain.linked_append.mpr ⟨hroot.linked, .singleton _, ?_⟩, ?_, ?_⟩, ?_⟩
    -- the new event names the uid of the last one
    · intro last hlast props hps
      cases hps
      rw [getLast?_map] at hlast
      obtain ⟨e, he, rfl⟩ := Option.map_eq_some_iff.mp hlast
      rw [hprev, he]
      exact (huids e (mem_of_getLast? he)).symm
    -- the first event is the new one only where there was none
    · intro props hps
      cases hevs : chainRun P spec ch appends with
      | nil =>
        rw [hevs] at hps hprev
        cases hps
        exact hprev
      | cons e evs =>
        apply hroot.first props
        rw [hevs] at hps ⊢
        exact hps
    · rw [forall_mem_append, forall_mem_singleton]
      exact ⟨hroot.recomputes, hrecomp⟩
    · rw [forall_mem_append, forall_mem_singleton]
      exact ⟨huids, huid⟩

/-! ### What an event decides -/

section Ideal

variable {maps : Props → Prop}
  (hfree : P.CollisionFree fun m => ∃ props, maps props ∧ m = caseChainMessage spec props)
  (hshort : ∀ props, maps props → Short props)
include hfree hshort

/-- An event decides everything before it. -/
theorem front_eq {front front' rest rest' : List Props} {props : Props}
    (h : IsRooted P spec (front ++ props :: rest)) (h' : IsRooted P spec (front' ++ props :: rest'))
    (hmaps : ∀ p ∈ front ++ props :: rest, maps p)
    (hmaps' : ∀ p ∈ front' ++ props :: rest', maps p) : front = front' := by
  have hspl (l r : List Props) : l ++ props :: r = (l ++ [props]) ++ r := by
    rw [append_assoc]; rfl
  rw [hspl] at h h' hmaps hmaps'
  have hroot := h.front
  have hroot' := h'.front
  rw [forall_mem_append] at hmaps hmaps'
  have heq : front ++ [props] = front' ++ [props] := by
    refine HashChain.eq_of_last hroot.linked hroot'.linked ?_ ?_ hroot.first
      hroot'.first (by simp) (by simp) ?_
    · intro a ha b hb hhash
      exact eq_of_caseChainUID_eq hfree hshort (hmaps.1 a ha) (hmaps'.1 b hb)
        (hroot.recomputes a ha) (hroot'.recomputes b hb) hhash
    · exact fun a _ => caseChainUID_ne_nil P spec a
    · rw [getLast?_concat, getLast?_concat]
  exact append_cancel_right heq

/-- Where the last of a chain's events is accepted, the chain is the front of what is accepted. -/
theorem eq_append_of_last_mem {out : List Props} (hbuilt : IsRooted P spec built)
    (hout : IsRooted P spec out) (hmaps : ∀ p ∈ built, maps p) (hmaps' : ∀ p ∈ out, maps p)
    (hlast : ∀ p ∈ built.getLast?, p ∈ out) : ∃ rest, out = built ++ rest := by
  cases hget : built.getLast? with
  | none =>
    rw [getLast?_eq_none_iff.mp hget]
    exact ⟨out, rfl⟩
  | some p =>
    obtain ⟨pre, rfl⟩ : ∃ pre, built = pre ++ [p] := ⟨_, (dropLast_append_getLast? p hget).symm⟩
    obtain ⟨front, rest, rfl⟩ := append_of_mem (hlast p hget)
    refine ⟨rest, ?_⟩
    rw [front_eq hfree hshort hout hbuilt hmaps' hmaps, append_assoc]
    rfl

/-- A part of a chain that is accepted is its front. -/
theorem eq_take_of_sublist {kept out : List Props} (hbuilt : IsRooted P spec built)
    (hout : IsRooted P spec out) (hmaps : ∀ p ∈ built, maps p) (hmaps' : ∀ p ∈ out, maps p)
    (hkept : kept.Sublist built) (hperm : out.Perm kept) : kept = built.take kept.length := by
  cases hget : kept.getLast? with
  | none => rw [getLast?_eq_none_iff.mp hget]; rfl
  | some p =>
    obtain ⟨pre, rfl⟩ : ∃ pre, kept = pre ++ [p] := ⟨_, (dropLast_append_getLast? p hget).symm⟩
    obtain ⟨before, after, rfl, hbef, haft⟩ := append_sublist_iff.mp hkept
    obtain ⟨middle, rest, rfl⟩ := append_of_mem (singleton_sublist.mp haft)
    obtain ⟨front, tail, rfl⟩ := append_of_mem
      (hperm.mem_iff.mpr (mem_append_right _ (mem_singleton_self p)))
    rw [← append_assoc] at hbuilt hmaps
    have hfr : front = before ++ middle := front_eq hfree hshort hout hbuilt hmaps' hmaps
    -- What is accepted has no more events than were kept, and no fewer than stood before `p`.
    have hcnt := hperm.length_eq
    have hle := hbef.length_le
    rw [hfr] at hcnt
    simp only [length_append, length_cons, length_nil] at hcnt
    have hmiddle : middle = [] := eq_nil_of_length_eq_zero (by omega)
    have hpre : pre = before := hbef.eq_of_length (by omega)
    rw [hmiddle, hpre, nil_append]
    rw [show before ++ p :: rest = (before ++ [p]) ++ rest by rw [append_assoc]; rfl,
      take_left' (by rw [length_append])]

/-- A map that differs from one that recomputes in one key does not recompute. -/
theorem not_recomputes_of_change {p q : Props} (hp : maps p) (hq : maps q)
    (hrecomp : Recomputes P spec p) {key : Bytes}
    (hkey : KeyMap.get? key p.entries ≠ KeyMap.get? key q.entries)
    (hoths : ∀ k, k ≠ key → KeyMap.get? k p.entries = KeyMap.get? k q.entries) :
    ¬ Recomputes P spec q := by
  intro hq'
  have huid : caseChainUID P spec p = caseChainUID P spec q := by
    by_cases huid : key = spec.key "uid"
    · -- The uid is not covered, so what is covered is the same.
      have hcov : caseChainCovered spec p = caseChainCovered spec q := by
        refine KeyMap.eq_of_get?_eq (p.increasing.filter_keys _) (q.increasing.filter_keys _) fun k => ?_
        rw [caseChainCovered, caseChainCovered]
        by_cases hk : k = spec.key "uid"
        · rw [hk, KeyMap.get?_filter_self, KeyMap.get?_filter_self]
        · rw [KeyMap.get?_filter hk, KeyMap.get?_filter hk, hoths k (huid ▸ hk)]
      rw [caseChainUID, caseChainUID, caseChainMessage, caseChainMessage, hcov]
    · rw [← hrecomp, ← hq', Props.get, Props.get, hoths _ (Ne.symm huid)]
  exact hkey (congrArg (fun props => KeyMap.get? key props.entries)
    (eq_of_caseChainUID_eq hfree hshort hp hq hrecomp hq' huid))

end Ideal

/-! ### The theorem -/

/-- The events of a chain in the ledger carry these property maps, in some order. -/
def Carries (D : PropertyCodec) (g : CaseChainSource) (spec : CaseChainSpec) (chain : Bytes)
    (maps : List Props) : Prop :=
  ∃ ids, g.nodesByProperty (spec.key "chain") chain = .ok ids ∧
    (ids.filterMap (labelledProps D g spec)).Perm maps

/-- The property maps at hand: of the ledger's events of the chain, and of the chain as it was
built. -/
def AtHand (D : PropertyCodec) (g : CaseChainSource) (spec : CaseChainSpec) (chain : Bytes)
    (built : List Props) (props : Props) : Prop :=
  (∃ ids, g.nodesByProperty (spec.key "chain") chain = .ok ids ∧
      props ∈ ids.filterMap (labelledProps D g spec)) ∨
    props ∈ built

/-- What is accepted is what the ledger carries. -/
theorem caseChainRead_carries {ch : Bytes} {maps : List Props} {out : List CaseChainEvent}
    (hcar : Carries D g spec ch maps) (h : caseChainRead P D g spec ch = .ok out)
    (hfree : P.CollisionFree fun m =>
      ∃ props, AtHand D g spec ch built props ∧ m = caseChainMessage spec props)
    (hshort : ∀ props, AtHand D g spec ch built props → Short props) :
    (out.map (·.props)).Perm maps ∧ IsRooted P spec (out.map (·.props)) ∧
      (∀ props ∈ out.map (·.props), AtHand D g spec ch built props) ∧ CaseChainFrom [] 0 out := by
  obtain ⟨ids, hids, hperm⟩ := hcar
  obtain ⟨evs, hevs, hout, hch⟩ := (caseChainRead_eq_ok_iff hfree hshort hids
    (fun id hid props hps => .inl ⟨ids, hids, mem_filterMap.mpr ⟨id, hid, hps⟩⟩) out).mp h
  obtain ⟨hsnd, hmap⟩ := caseChainEvents_eq_ok hevs
  have hps : (out.map (·.props)).Perm (ids.filterMap (labelledProps D g spec)) :=
    hmap ▸ hout.map _
  refine ⟨hps.trans hperm, ?_, ?_, hch⟩
  · exact isRooted_of_caseChainFrom (fun e he => hsnd e (hout.mem_iff.mp he)) hch
  · exact fun props hmem => .inl ⟨ids, hids, hps.mem_iff.mp hmem⟩

/-- A chain is read exactly when its events are one chain from the start, in whatever order the
store returns them.  Of a chain that was built by appends: a change of one property of an event is
refused; so is any other map in the place of an event before the last; what is accepted beside the
chain's own events goes on after its last one; and what is accepted of the chain's events alone is
its front. -/
theorem caseChain_tamperEvident (chain : Bytes) (appends : List (Nat × Props))
    (hfree : P.CollisionFree fun m => ∃ props,
      AtHand D g spec chain ((chainRun P spec chain appends).map (·.props)) props ∧
        m = caseChainMessage spec props)
    (hshort : ∀ props, AtHand D g spec chain ((chainRun P spec chain appends).map (·.props)) props →
      Short props) :
    (∀ ids, g.nodesByProperty (spec.key "chain") chain = .ok ids →
      ∀ (ids' : List Nat), ids'.Perm ids → ∀ out,
        caseChainRead P D { g with nodesByProperty := fun _ _ => .ok ids' } spec chain = .ok out ↔
          ∃ events, caseChainEvents P D g spec ids = .ok events ∧ out.Perm events ∧
            CaseChainFrom [] 0 out) ∧
      (∀ front old rest new key,
        (chainRun P spec chain appends).map (·.props) = front ++ old :: rest →
        KeyMap.get? key old.entries ≠ KeyMap.get? key new.entries →
        (∀ k, k ≠ key → KeyMap.get? k old.entries = KeyMap.get? k new.entries) →
        Carries D g spec chain (front ++ new :: rest) →
        ∀ out, caseChainRead P D g spec chain ≠ .ok out) ∧
      (∀ front old rest new,
        (chainRun P spec chain appends).map (·.props) = front ++ old :: rest → rest ≠ [] →
        new ≠ old → Carries D g spec chain (front ++ new :: rest) →
        ∀ out, caseChainRead P D g spec chain ≠ .ok out) ∧
      (∀ extra, Carries D g spec chain ((chainRun P spec chain appends).map (·.props) ++ extra) →
        ∀ out, caseChainRead P D g spec chain = .ok out → ∃ front rest, out = front ++ rest ∧
            front.map (·.props) = (chainRun P spec chain appends).map (·.props) ∧
            (rest.map (·.props)).Perm extra ∧
            CaseChainFrom ((front.getLast?.map (·.uid)).getD []) front.length rest) ∧
      ∀ kept, kept.Sublist ((chainRun P spec chain appends).map (·.props)) →
        Carries D g spec chain kept → ∀ out, caseChainRead P D g spec chain = .ok out →
          kept = ((chainRun P spec chain appends).map (·.props)).take kept.length := by
  have hbuilt : IsRooted P spec ((chainRun P spec chain appends).map (·.props)) :=
    (isRooted_chainRun chain appends).1
  refine ⟨?_, ?_, ?_, ?_, ?_⟩
  · intro ids hids ids' hperm out
    exact caseChainRead_perm hfree hshort hperm (fun id hid props hprops =>
      .inl ⟨ids, hids, mem_filterMap.mpr ⟨id, hid, hprops⟩⟩) out
  -- one property changed: the event no longer recomputes
  · intro front old rest new key hsplit hkey hothers hcarries out h
    obtain ⟨hperm, hrooted, hhand, -⟩ := caseChainRead_carries hcarries h hfree hshort
    have hmem : new ∈ out.map (·.props) :=
      hperm.mem_iff.mpr (mem_append_right _ mem_cons_self)
    have hold : old ∈ (chainRun P spec chain appends).map (·.props) := by
      rw [hsplit]
      exact mem_append_right _ mem_cons_self
    exact not_recomputes_of_change hfree hshort (.inr hold) (hhand new hmem)
      (hbuilt.recomputes old hold) hkey hothers (hrooted.recomputes new hmem)
  -- an event replaced before the last: the last one decides those before it
  · intro front old rest new hsplit hne hnew hcarries out h
    obtain ⟨hperm, hrooted, hhand, -⟩ := caseChainRead_carries hcarries h hfree hshort
    obtain ⟨more, hmore⟩ := eq_append_of_last_mem hfree hshort hbuilt hrooted (fun p hp => .inr hp)
      hhand fun p hp => hperm.mem_iff.mpr (by
        rw [hsplit, getLast?_append_of_ne_nil _ (cons_ne_nil _ _),
          getLast?_cons_of_ne_nil hne] at hp
        exact mem_append_right _ (mem_cons_of_mem _ (mem_of_getLast? hp)))
    rw [hmore, hsplit] at hperm
    have hnil : more = [] := by
      have := hperm.length_eq
      simp only [length_append, length_cons] at this
      exact eq_nil_of_length_eq_zero (by omega)
    rw [hnil, append_nil, perm_append_left_iff] at hperm
    have hone : (rest ++ [old]).Perm (rest ++ [new]) :=
      (perm_append_singleton _ _).trans (hperm.trans (perm_append_singleton _ _).symm)
    rw [perm_append_left_iff, perm_singleton] at hone
    exact hnew (cons.inj hone).1.symm
  -- events added: they come after the chain
  · intro extra hcarries out h
    obtain ⟨hperm, hrooted, hhand, hchain⟩ := caseChainRead_carries hcarries h hfree hshort
    obtain ⟨more, hmore⟩ := eq_append_of_last_mem hfree hshort hbuilt hrooted (fun p hp => .inr hp)
      hhand fun p hp => hperm.mem_iff.mpr (mem_append_left _ (mem_of_getLast? hp))
    obtain ⟨front, rest, rfl, hfront, hrest⟩ := map_eq_append_iff.mp hmore
    refine ⟨front, rest, rfl, hfront, ?_, ?_⟩
    · rw [hmore, perm_append_left_iff] at hperm
      rwa [hrest]
    · have hafter := (caseChainFrom_append.mp hchain).2
      rwa [Nat.zero_add] at hafter
  -- events removed: what is left is a beginning of the chain
  · intro kept hkept hcarries out h
    obtain ⟨hperm, hrooted, hhand, -⟩ := caseChainRead_carries hcarries h hfree hshort
    exact eq_take_of_sublist hfree hshort hbuilt hrooted (fun p hp => .inr hp) hhand hkept hperm

/-! ### A ledger of two events -/

/-- Primitives whose hash is the length of what it is taken of. -/
def measuring : Primitives :=
  { Security.copying with sha256 := fun m => Vector.replicate 32 (UInt8.ofNat m.length) }

def noteSpec : CaseChainSpec := ⟨7, text "note"⟩

/-- The events that `ids` name of a chain of two. -/
def noteEvents (ids : List Nat) : List CaseChainEvent :=
  chainRun measuring noteSpec (text "c") (ids.map fun id => (id, ⟨[], Props.increasing_nil⟩))

/-- A ledger that carries the nodes 1 and 2, each with the properties of its event. -/
def noteSource (posting : List Nat) : CaseChainSource where
  nodesByProperty _ _ := .ok posting
  getNode id := .ok ⟨id, [noteSpec.label], [UInt8.ofNat id]⟩

def noteCodec : PropertyCodec where
  decode blob :=
    ((noteEvents [1, 2]).find? fun event => [UInt8.ofNat event.id] = blob).map (·.props)

/-- An event that is itself the next one of the chain is accepted. -/
theorem caseChain_inserted_next : Carries noteCodec (noteSource [1, 2]) noteSpec (text "c")
        ((noteEvents [1]).map (·.props) ++ ((noteEvents [1, 2]).map (·.props)).drop 1) ∧
      caseChainRead measuring noteCodec (noteSource [1, 2]) noteSpec (text "c") =
        .ok (noteEvents [1, 2]) := by
  refine ⟨⟨[1, 2], rfl, ?_⟩, ?_⟩
  · decide +kernel
  · decide +kernel

theorem mem_of_atHand_noteSource {props : Props}
    (h : AtHand noteCodec (noteSource [1, 2]) noteSpec (text "c") ((noteEvents [1, 2]).map (·.props))
      props) : props ∈ (noteEvents [1, 2]).map (·.props) := by
  obtain ⟨ids, hids, hps⟩ | hps := h
  · obtain rfl : [1, 2] = ids := Except.ok.inj hids
    have hall : ([1, 2].filterMap (labelledProps noteCodec (noteSource [1, 2]) noteSpec)) =
        (noteEvents [1, 2]).map (·.props) := by decide +kernel
    rwa [hall] at hps
  · exact hps

/-- Returned the other way round, the two events are read in the order they were written. -/
theorem caseChain_tamperEvident_two : caseChainRead measuring noteCodec
        { noteSource [1, 2] with nodesByProperty := fun _ _ => .ok [2, 1] } noteSpec (text "c") =
      .ok (noteEvents [1, 2]) := by
  have hfree : measuring.CollisionFree fun m => ∃ props,
      AtHand noteCodec (noteSource [1, 2]) noteSpec (text "c") ((noteEvents [1, 2]).map (·.props))
        props ∧ m = caseChainMessage noteSpec props := by
    have hall : ∀ p ∈ (noteEvents [1, 2]).map (·.props), ∀ q ∈ (noteEvents [1, 2]).map (·.props),
        measuring.sha256 (caseChainMessage noteSpec p) =
          measuring.sha256 (caseChainMessage noteSpec q) →
        caseChainMessage noteSpec p = caseChainMessage noteSpec q := by decide +kernel
    rintro m m' ⟨p, hp, rfl⟩ ⟨q, hq, rfl⟩ h
    exact hall p (mem_of_atHand_noteSource hp) q (mem_of_atHand_noteSource hq) h
  have hshort : ∀ props, AtHand noteCodec (noteSource [1, 2]) noteSpec (text "c")
      ((noteEvents [1, 2]).map (·.props)) props → Short props := by
    have hall : ∀ p ∈ (noteEvents [1, 2]).map (·.props),
        ∀ entry ∈ p.entries, entry.1.length < 2 ^ 64 ∧ entry.2.length < 2 ^ 64 := by decide +kernel
    exact fun props hprops => hall props (mem_of_atHand_noteSource hprops)
  have hread := (caseChain_tamperEvident (text "c") [(1, ⟨[], .nil⟩), (2, ⟨[], .nil⟩)] hfree
    hshort).1 [1, 2] rfl [2, 1] (by decide) (noteEvents [1, 2])
  exact hread.mpr ⟨noteEvents [1, 2], by decide +kernel, .refl _,
    by decide +kernel, by decide +kernel, by decide +kernel, by decide +kernel, trivial⟩

end Mutant.Builtin
