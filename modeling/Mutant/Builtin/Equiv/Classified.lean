import Mathlib.Data.List.ReduceOption
import Mutant.Builtin.Classified

/-!
# The sinks fail closed

A value that no sink refuses reaches no classified buffer, and so renders the same whatever the
classified buffers hold.

* `inspect_congr`: rendering reads no buffer it does not reach;
* `refuseClassified_fails_closed`: both facts together.
-/

namespace Mutant.Builtin

open List Mutant.Object
open Mutant.Security (Bytes text)

variable {R : Rendering} {h h' : Heap}

/-! ### What an object holds -/

/-- The objects that an object holds: array elements, hash keys and values, struct fields, the related
values of an error, multi-values, an enum's payload, and what a cell or a return value wraps. -/
def holds : Obj → List (Option Ref)
  | .array elements => elements
  | .hash pairs => pairs.flatMap fun pair => [pair.key, pair.value]
  | .struct _ _ fields => fields.map Prod.snd
  | .error _ related => related.map Prod.snd
  | .multiValue values => values
  | .enumValue _ _ value => [value]
  | .cell value => [value]
  | .returnValue value => [value]
  | _ => []

/-- An object is reachable from another. -/
def Reachable (h : Heap) : Ref → Ref → Prop := Relation.ReflTransGen fun a b => some b ∈ holds (h a)

/-- The walk goes on to all that an object holds. -/
theorem mem_next_of_holds {a b : Ref} (hb : some b ∈ holds (h a)) :
    b ∈ (classifiedSight h a).next := by
  rw [classifiedSight]
  cases hobj : h a with
  | array elems | hash pairs | struct tname fieldOrder fs | multiValue vs =>
    rw [hobj] at hb
    exact reduceOption_mem_iff.mpr hb
  | error e related =>
    rw [hobj] at hb
    have hsort := ((perm_insertionSort (fun a b => a.1 ≤ b.1) related).map Prod.snd).mem_iff.mpr hb
    exact reduceOption_mem_iff.mpr hsort
  | enumValue tname tag v | cell v | returnValue v =>
    rw [hobj] at hb
    exact Option.mem_toList.mpr (mem_singleton.mp hb).symm
  | integer v | float bits | boolean v | string v | null | plain type rendered
  | encrypted v encType seed classified | bytes v classified =>
    rw [hobj] at hb
    cases hb

/-- A classified buffer is a hit of the search. -/
theorem hit_of_mark {r : Ref} {c : Classification} (hmark : mark (h r) = some c) :
    ∃ found, classifiedSight h r = .hit found := by
  rw [classifiedSight]
  cases hobj : h r with
  | bytes v classified | encrypted v encType seed classified =>
    rw [hobj, mark] at hmark
    rw [hmark]
    exact ⟨_, rfl⟩
  | integer v | float bits | boolean v | string v | null | plain type rendered
  | array elems | hash pairs | struct tname fieldOrder fs | error e related
  | multiValue vs | enumValue tname tag v | cell v | returnValue v =>
    rw [hobj] at hmark
    exact absurd (show none = some c from hmark) nofun

/-- Nothing that a value holds is marked, when the walk finds nothing and got to the bottom. -/
theorem mark_eq_none_of_findClassified {a b : Ref}
    (hfind : findClassified h (some a) = (none, false)) (hb : Reachable h a b) :
    mark (h b) = none := by
  obtain ⟨hfnd, hdeep⟩ := Prod.mk.inj hfind
  have hsearch : DeepSearch.search (classifiedSight h) (classifiedWalkDepth + 1) a ⟨[], false⟩ =
      (none, _) := Prod.ext hfnd rfl
  have hreaches : DeepSearch.Reaches (classifiedSight h) a b :=
    Relation.ReflTransGen.mono (fun _ _ => mem_next_of_holds) _ _ hb
  by_contra hmark
  obtain ⟨c, hc⟩ := Option.ne_none_iff_exists'.mp hmark
  obtain ⟨found, hhit⟩ := hit_of_mark hc
  exact DeepSearch.not_hit_of_search hsearch hdeep hreaches found hhit

/-! ### What a rendering reads -/

theorem mapM_congr {α β : Type} {f g : α → Option β} {l : List α} (h : ∀ a ∈ l, f a = g a) :
    l.mapM f = l.mapM g := by
  induction l with
  | nil => rfl
  | cons a l ih =>
    rw [forall_mem_cons] at h
    rw [mapM_cons, mapM_cons, h.1, ih h.2]

/-- Two ways to render agree on what an object holds. -/
structure Agree (h h' : Heap) (render render' : Option Ref → Option Bytes) (held : List (Option Ref)) :
    Prop where
  nil : render none = render' none
  render : ∀ value ∈ held, render value = render' value
  heap : ∀ r, some r ∈ held → h r = h' r

variable {render render' : Option Ref → Option Bytes}

theorem orNull_congr {value : Option Ref} (h : render value = render' value) :
    orNull render value = orNull render' value := by
  cases value with
  | none => rfl
  | some r => exact h

theorem namedParts_congr {separator : String} {entries : List (Bytes × Option Ref)}
    (h : ∀ entry ∈ entries, render entry.2 = render' entry.2) :
    namedParts separator render entries = namedParts separator render' entries :=
  mapM_congr fun entry hent => by rw [h entry hent]

/-- The value of a field is held by the struct, or nil. -/
theorem fieldOf_mem (fs : List (Bytes × Option Ref)) (name : Bytes) :
    (fieldOf fs name).2 = none ∨ (fieldOf fs name).2 ∈ fs.map Prod.snd := by
  cases hlook : fs.lookup name with
  | none => exact .inl (by rw [fieldOf, hlook]; rfl)
  | some value =>
    obtain ⟨pre, after, hflds, -⟩ := lookup_eq_some_iff.mp hlook
    refine .inr ?_
    have hval : (fieldOf fs name).2 = value := by rw [fieldOf, hlook]; rfl
    rw [hval, hflds]
    simp

/-- A pair renders alike when its key and its value do. -/
theorem renderPair_congr {pairs : List HashPair} {pair : HashPair} (hpair : pair ∈ pairs)
    (hagr : Agree h h' render render' (pairs.flatMap fun pair => [pair.key, pair.value])) :
    renderPair h render pair = renderPair h' render' pair := by
  have hkey : pair.key ∈ pairs.flatMap fun pair => [pair.key, pair.value] :=
    mem_flatMap.mpr ⟨pair, hpair, mem_cons_self⟩
  have hval : pair.value ∈ pairs.flatMap fun pair => [pair.key, pair.value] :=
    mem_flatMap.mpr ⟨pair, hpair, mem_cons_of_mem _ mem_cons_self⟩
  rw [renderPair, renderPair, hagr.render _ hval]
  cases hnil : pair.key with
  | none => rfl
  | some key =>
    rw [hnil] at hkey
    rw [Option.bind_some, Option.bind_some, hagr.render _ hkey, hagr.heap key hkey]

/-- Rendering an object reads only what the object holds. -/
theorem inspectObj_congr {obj : Obj} (hagr : Agree h h' render render' (holds obj)) :
    inspectObj R h render obj = inspectObj R h' render' obj := by
  cases obj with
  | array elems =>
    have hpts : elems.mapM render = elems.mapM render' := mapM_congr hagr.render
    rw [inspectObj, inspectObj, hpts]
  | hash pairs =>
    rw [inspectObj, inspectObj, mapM_congr fun pair hpair => renderPair_congr hpair hagr]
  -- a field that is missing renders as nothing does
  | struct tname fieldOrder fs =>
    rw [inspectObj, inspectObj, namedParts_congr]
    intro entry hent
    obtain ⟨name, -, rfl⟩ := mem_map.mp hent
    obtain hnil | hmem := fieldOf_mem fs name
    · rw [hnil, hagr.nil]
    · exact hagr.render _ hmem
  | error e related =>
    rw [inspectObj, inspectObj, namedParts_congr]
    intro entry hent
    have hmem := (perm_insertionSort (fun a b => a.1 ≤ b.1) related).mem_iff.mp hent
    exact orNull_congr (hagr.render _ (mem_map_of_mem hmem))
  | multiValue vs =>
    have hpts : vs.mapM (orNull render) = vs.mapM (orNull render') :=
      mapM_congr fun v hval => orNull_congr (hagr.render _ hval)
    rw [inspectObj, inspectObj, hpts]
  | enumValue tname tag v =>
    cases v with
    | none => rfl
    | some r =>
      rw [inspectObj, inspectObj, hagr.heap r mem_cons_self, hagr.render _ mem_cons_self]
  | cell v => exact orNull_congr (hagr.render _ mem_cons_self)
  | returnValue v => exact hagr.render _ mem_cons_self
  -- these hold no reference
  | integer v | float bits | boolean v | string v | null | plain type rendered
  | encrypted v encType seed classified | bytes v classified => rfl

/-- A value renders the same in two heaps that agree on all it reaches. -/
theorem inspect_congr {d : Nat} {a : Ref} (hsame : ∀ b, Reachable h a b → h b = h' b) :
    inspect R h d (some a) = inspect R h' d (some a) := by
  induction d generalizing a with
  | zero => rfl
  | succ d ih =>
    rw [inspect, inspect, ← hsame a .refl]
    refine inspectObj_congr ⟨?_, ?_, ?_⟩
    · cases d <;> rfl
    · intro v hval
      cases v with
      | none => cases d <;> rfl
      | some b =>
        exact ih fun c hc => hsame c (Relation.ReflTransGen.head hval hc)
    · exact fun b hb => hsame b (.single hb)

/-! ### The sinks -/

theorem findClassified_of_refuseArgument {op : Bytes} {i : Nat} {arg : Option Ref}
    (hpass : refuseArgument R h op i arg = none) : findClassified h arg = (none, false) := by
  rw [refuseArgument] at hpass
  split at hpass
  · cases hpass
  · cases hpass
  · next heq => exact heq

/-- Whatever the sinks let through reaches no buffer that carries a mark, opened or sealed; and so it
renders the same in every heap that differs only in objects that carry one. -/
theorem refuseClassified_fails_closed {op : Bytes} {args : List (Option Ref)}
    (hpass : refuseClassified R h op args = none) {a : Ref} (ha : some a ∈ args) :
    (∀ b, Reachable h a b → mark (h b) = none) ∧
      ∀ h' : Heap, (∀ b, mark (h b) = none → h' b = h b) →
        ∀ depth, inspect R h' depth (some a) = inspect R h depth (some a) := by
  obtain ⟨i, hi⟩ := mem_iff_getElem?.mp ha
  have hmem : (some a, i) ∈ args.zipIdx := mem_zipIdx_iff_getElem?.mpr hi
  have hargument := findSome?_eq_none_iff.mp hpass _ hmem
  have hfind := findClassified_of_refuseArgument hargument
  have hmark : ∀ b, Reachable h a b → mark (h b) = none :=
    fun b hb => mark_eq_none_of_findClassified hfind hb
  refine ⟨hmark, fun h' hsame depth => ?_⟩
  exact (inspect_congr fun b hb => (hsame b (hmark b hb)).symm).symm

/-- An array that holds a text and itself, beside a classified buffer. -/
def selfHolding : Heap
  | 0 => .array [some 1, some 0]
  | 1 => .string (text "clean")
  | _ => .bytes [1, 2, 3] (some ⟨text "r", [text "c"], [text "secret"]⟩)

def bareRendering : Rendering := ⟨fun _ => [], fun _ _ => false, id⟩

theorem refuseClassified_fails_closed_self :
    (∀ b, Reachable selfHolding 0 b → mark (selfHolding b) = none) ∧
      ∀ h' : Heap, (∀ b, mark (selfHolding b) = none → h' b = selfHolding b) →
        ∀ depth, inspect bareRendering h' depth (some 0) = inspect bareRendering selfHolding depth (some 0) := by
  have hpass : refuseClassified bareRendering selfHolding (text "putln") [some 0] = none := rfl
  exact refuseClassified_fails_closed hpass mem_cons_self

end Mutant.Builtin
