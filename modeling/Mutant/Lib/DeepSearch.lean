import Mathlib.Logic.Relation
import Mathlib.Tactic.SplitIfs

/-!
# Depth-limited search of a graph

A search that goes into every node's successors, remembers some of the nodes it has been in, and gives
up below a given depth, saying so.  When it finds nothing and did not give up anywhere, nothing that
can be reached is what it looks for (`not_hit_of_search`), even where a remembered node was first met
near the limit.
-/

namespace DeepSearch

variable {ν κ : Type} [DecidableEq ν]

/-- What the search sees at a node: what it looks for, a node that it goes into once, or one that it
goes into each time. -/
inductive Sight (ν κ : Type)
  | hit (found : κ)
  | once (next : List ν)
  | each (next : List ν)

def Sight.next : Sight ν κ → List ν
  | .hit _ => []
  | .once next => next
  | .each next => next

/-- The nodes that were gone into and are remembered, and whether the search gave up somewhere. -/
structure State (ν : Type) where
  seen : List ν
  deep : Bool

/-- A search of one node after the other, up to the first hit. -/
def searchAll (visit : ν → State ν → Option κ × State ν) : List ν → State ν → Option κ × State ν
  | [], s => (none, s)
  | v :: rest, s =>
    match visit v s with
    | (some found, s') => (some found, s')
    | (none, s') => searchAll visit rest s'

/-- The search of a node with so many levels to go. -/
def search (sight : ν → Sight ν κ) : (room : Nat) → ν → State ν → Option κ × State ν
  | 0, _, s => (none, { s with deep := true })
  | room + 1, v, s =>
    match sight v with
    | .hit found => (some found, s)
    | .once next =>
      if v ∈ s.seen then (none, s)
      else searchAll (search sight room) next { s with seen := v :: s.seen }
    | .each next => searchAll (search sight room) next s

/-! ### Soundness -/

variable {sight : ν → Sight ν κ} {s s' : State ν} {v w : ν}

/-- A node that is remembered, or that leads to such nodes and to nothing that is looked for. -/
inductive Covered (sight : ν → Sight ν κ) (seen : List ν) : ν → Prop
  | seen {v : ν} (h : v ∈ seen) : Covered sight seen v
  | each {v : ν} {next : List ν} (h : sight v = .each next)
      (hnext : ∀ w ∈ next, Covered sight seen w) : Covered sight seen v

omit [DecidableEq ν] in
theorem Covered.mono {seen seen' : List ν} (hsub : seen ⊆ seen') (h : Covered sight seen v) :
    Covered sight seen' v := by
  induction h with
  | seen h => exact .seen (hsub h)
  | each h _ ih => exact .each h ih

/-- What a search that neither found anything nor gave up has done: the nodes it remembers are those
remembered before, and nodes all of whose successors are covered. -/
structure Done (sight : ν → Sight ν κ) (s s' : State ν) : Prop where
  deep : s.deep = false
  seen : s.seen ⊆ s'.seen
  new : ∀ w ∈ s'.seen, w ∈ s.seen ∨
    ∃ next, sight w = .once next ∧ ∀ x ∈ next, Covered sight s'.seen x

omit [DecidableEq ν] in
theorem Done.refl (h : s.deep = false) : Done sight s s :=
  ⟨h, List.Subset.refl _, fun _ hw => .inl hw⟩

omit [DecidableEq ν] in
theorem Done.trans {s'' : State ν} (h : Done sight s s') (h' : Done sight s' s'') :
    Done sight s s'' := by
  refine ⟨h.deep, List.Subset.trans h.seen h'.seen, fun w hw => ?_⟩
  obtain hw | hnew := h'.new w hw
  · obtain hw | ⟨next, hsight, hnext⟩ := h.new w hw
    · exact .inl hw
    · exact .inr ⟨next, hsight, fun x hx => (hnext x hx).mono h'.seen⟩
  · exact .inr hnew

omit [DecidableEq ν] in
/-- A search of several nodes that finds nothing has covered them all. -/
theorem done_searchAll {visit : ν → State ν → Option κ × State ν}
    (hvis : ∀ v s s', visit v s = (none, s') → s'.deep = false →
      Done sight s s' ∧ Covered sight s'.seen v)
    {nodes : List ν} (h : searchAll visit nodes s = (none, s')) (hdeep : s'.deep = false) :
    Done sight s s' ∧ ∀ v ∈ nodes, Covered sight s'.seen v := by
  induction nodes generalizing s with
  | nil =>
    obtain rfl := (Prod.mk.inj h).2
    exact ⟨.refl hdeep, fun v hv => absurd hv List.not_mem_nil⟩
  | cons v rest ih =>
    rw [searchAll] at h
    split at h
    · cases h
    · next s₁ hfst =>
      obtain ⟨hdone, hrest⟩ := ih h
      obtain ⟨hdone₁, hv⟩ := hvis v s s₁ hfst hdone.deep
      refine ⟨hdone₁.trans hdone, List.forall_mem_cons.mpr ⟨hv.mono hdone.seen, hrest⟩⟩

/-- A search that finds nothing and does not give up has covered its node. -/
theorem done_search {room : Nat} (h : search sight room v s = (none, s')) (hdeep : s'.deep = false) :
    Done sight s s' ∧ Covered sight s'.seen v := by
  -- the room that is left, since what is remembered grows
  induction room generalizing v s s' with
  | zero =>
    obtain rfl := (Prod.mk.inj h).2
    cases hdeep
  | succ room ih =>
    have hvis : ∀ v s s', search sight room v s = (none, s') → s'.deep = false →
        Done sight s s' ∧ Covered sight s'.seen v := fun v s s' h hdeep => ih h hdeep
    rw [search] at h
    split at h
    · cases h
    · next succs hsight =>
      split_ifs at h with hseen
      · obtain rfl := (Prod.mk.inj h).2
        exact ⟨.refl hdeep, .seen hseen⟩
      · -- the node itself is new, and its successors are covered by what is seen at the end
        obtain ⟨hdone, hnext⟩ := done_searchAll hvis h hdeep
        refine ⟨⟨hdone.deep, List.Subset.trans (List.subset_cons_self v s.seen) hdone.seen, ?_⟩,
          .seen (hdone.seen List.mem_cons_self)⟩
        intro w hw
        obtain hw | hnew := hdone.new w hw
        · obtain rfl | hw := List.mem_cons.mp hw
          · exact .inr ⟨succs, hsight, hnext⟩
          · exact .inl hw
        · exact .inr hnew
    · next succs hsight =>
      obtain ⟨hdone, hnext⟩ := done_searchAll hvis h hdeep
      exact ⟨hdone, .each hsight hnext⟩

/-- A node can be reached from another. -/
def Reaches (sight : ν → Sight ν κ) : ν → ν → Prop :=
  Relation.ReflTransGen fun a b => b ∈ (sight a).next

omit [DecidableEq ν] in
/-- What a covered node leads to is covered, once all that is seen has covered successors. -/
theorem Covered.next {seen : List ν}
    (hseen : ∀ w ∈ seen, ∃ next, sight w = .once next ∧ ∀ x ∈ next, Covered sight seen x)
    (hv : Covered sight seen v) (hw : w ∈ (sight v).next) : Covered sight seen w := by
  cases hv with
  | seen h =>
    obtain ⟨next, hsight, hnext⟩ := hseen v h
    rw [hsight] at hw
    exact hnext w hw
  | each h hnext =>
    rw [h] at hw
    exact hnext w hw

/-- What such a search can reach is no hit. -/
theorem not_hit_of_search {room : Nat} (h : search sight room v ⟨[], false⟩ = (none, s'))
    (hdeep : s'.deep = false) (hw : Reaches sight v w) (found : κ) : sight w ≠ .hit found := by
  obtain ⟨hdone, hv⟩ := done_search h hdeep
  have hseen : ∀ w ∈ s'.seen, ∃ next, sight w = .once next ∧ ∀ x ∈ next, Covered sight s'.seen x :=
    fun w hw => (hdone.new w hw).resolve_left List.not_mem_nil
  -- covered nodes lead only to covered nodes
  have hcov : Covered sight s'.seen w := by
    induction hw with
    | refl => exact hv
    | tail _ hstep ih => exact ih.next hseen hstep
  intro hhit
  cases hcov with
  | seen h =>
    obtain ⟨next, hsight, -⟩ := hseen w h
    rw [hhit] at hsight
    cases hsight
  | each h _ =>
    rw [hhit] at h
    cases h

end DeepSearch
