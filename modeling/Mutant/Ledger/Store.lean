import Mutant.Lib.KeyMap
import Mutant.Security.Primitives

/-!
# The ledger's store

Nodes and edges as the graph store hands them out.  A node's properties are a blob; what it decodes
to is a map, listed by its keys.
-/

namespace Mutant.Ledger

open Mutant.Security (Bytes)

/-- `map[string]string`. -/
structure Props where
  entries : List (Bytes × Bytes)
  increasing : KeyMap.Increasing entries
deriving DecidableEq

namespace Props

theorem increasing_nil : KeyMap.Increasing ([] : List (Bytes × Bytes)) := .nil

/-- The value of a key, empty where there is none. -/
def get (props : Props) (key : Bytes) : Bytes := (KeyMap.get? key props.entries).getD []

def set (props : Props) (key value : Bytes) : Props :=
  ⟨KeyMap.insert key value props.entries, KeyMap.increasing_insert props.increasing⟩

theorem get_set (ps : Props) (key v k : Bytes) :
    (ps.set key v).get k = if key = k then v else ps.get k := by
  rw [get, set, KeyMap.get?_insert]
  split_ifs <;> rfl

@[simp] theorem get_set_self (ps : Props) (key value : Bytes) :
    (ps.set key value).get key = value := by
  rw [get_set, if_pos rfl]

theorem get_set_of_ne (ps : Props) {key k : Bytes} (h : key ≠ k) (v : Bytes) :
    (ps.set key v).get k = ps.get k := by
  rw [get_set, if_neg h]

@[ext] theorem ext {p q : Props} (h : ∀ key, KeyMap.get? key p.entries = KeyMap.get? key q.entries) :
    p = q := by
  cases p
  cases q
  congr
  exact KeyMap.eq_of_get?_eq ‹_› ‹_› h

end Props

/-- `store.Node`. -/
structure Node where
  id : Nat
  labels : List Nat
  properties : Bytes
deriving DecidableEq, Repr

/-- `store.Edge`. -/
structure Edge where
  id : Nat
  src : Nat
  dst : Nat
  labels : List Nat
  properties : Bytes
deriving DecidableEq, Repr

/-- What a read of the store fails with. -/
inductive StoreError
  /-- `store.ErrNotFound`. -/
  | notFound (id : Nat)
  | failed (message : Bytes)
deriving DecidableEq, Repr

/-- `ledgerDecodeProperties`. -/
structure PropertyCodec where
  decode : Bytes → Option Props

end Mutant.Ledger
