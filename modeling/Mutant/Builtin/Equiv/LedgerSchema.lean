import Mutant.Builtin.RedactionVersion

/-!
# Ledgers that the disclosure family has written

In such a ledger (`Schema`) every node has one label and a property map, and is looked up by the keys
of its label.  So a lookup finds exactly the nodes that say what is asked for (`Schema.nodesUnder`),
and `disclosureFind` finds a record exactly where it is (`Schema.find_record`).
-/

namespace Mutant.Builtin

open List Mutant.Ledger
open Mutant.Security (Bytes text)

variable {node : Node} {label : Nat} {key value : Bytes}

variable {E : LedgerEnv}

/-! ### What a node says -/

/-- The node has one label and a property map. -/
def Says (E : LedgerEnv) (node : Node) (label : Nat) (props : Props) : Prop :=
  node.labels = [label] ∧ E.C.decode node.properties = some props

theorem Says.unique {lab' : Nat} {ps props' : Props}
    (h : Says E node label ps) (h' : Says E node lab' props') : label = lab' ∧ ps = props' :=
  ⟨(cons.inj (h.1.symm.trans h'.1)).1, Option.some.inj (h.2.symm.trans h'.2)⟩

/-- The node says a value under a key. -/
def SaysKey (E : LedgerEnv) (node : Node) (label : Nat) (key value : Bytes) : Prop :=
  ∃ props, Says E node label props ∧ KeyMap.get? key props.entries = some value

theorem SaysKey.unique {lab' : Nat} {value' : Bytes}
    (h : SaysKey E node label key value) (h' : SaysKey E node lab' key value') :
    value = value' := by
  obtain ⟨ps, htold, hval⟩ := h
  obtain ⟨ps', htold', hval'⟩ := h'
  obtain rfl := (htold.unique htold').2
  exact Option.some.inj (hval.symm.trans hval')

/-- What a node with a label and properties is looked up by. -/
def lookupKeys (E : LedgerEnv) (label : Nat) (props : Props) : List (Bytes × Bytes) :=
  (disclosureKeys E.T label).filterMap fun key =>
    (KeyMap.get? key props.entries).map fun value => (key, value)

/-- A node is looked up by those of its properties that are keys of its label. -/
theorem mem_lookupKeys {props : Props} : (key, value) ∈ lookupKeys E label props ↔
    key ∈ disclosureKeys E.T label ∧ KeyMap.get? key props.entries = some value := by
  rw [lookupKeys, mem_filterMap]
  constructor
  · rintro ⟨k, hk, hentry⟩
    obtain ⟨v, hv, heq⟩ := Option.map_eq_some_iff.mp hentry
    obtain ⟨rfl, rfl⟩ := Prod.mk.inj heq
    exact ⟨hk, hv⟩
  · rintro ⟨hkey, hval⟩
    exact ⟨key, hkey, by rw [hval]; rfl⟩

/-! ### The ledger's invariant -/

/-- A record's node. -/
def IsRecord (E : LedgerEnv) (node : Node) (uid : Bytes) : Prop :=
  SaysKey E node (disclosureNodeRecord E.T) (text "record.uid") uid

/-- The record whose node has an id. -/
def RecordAt (E : LedgerEnv) (g : E.S.State) (id : Nat) (uid : Bytes) : Prop :=
  ∃ node ∈ E.S.nodes g, node.id = id ∧ IsRecord E node uid

/-- The edge says that a record supersedes another. -/
def Supersedes (E : LedgerEnv) (g : E.S.State) (edge : Edge) (new old : Bytes) : Prop :=
  disclosureEdgeSupersedes E.T ∈ edge.labels ∧ RecordAt E g edge.src new ∧ RecordAt E g edge.dst old

/-- The ledger is one that the disclosure family has written. -/
structure Schema (E : LedgerEnv) (g : E.S.State) : Prop where
  /-- The index has the keys of a node's label. -/
  indexed : ∀ node ∈ E.S.nodes g, ∃ label props, Says E node label props ∧
    ∀ key value, E.S.Indexed g node.id key value ↔ (key, value) ∈ lookupKeys E label props
  /-- A record's node has a uid, and no other record's node has it. -/
  record : ∀ node ∈ E.S.nodes g, ∀ props, Says E node (disclosureNodeRecord E.T) props →
    ∃ uid, IsRecord E node uid
  unique : ∀ node ∈ E.S.nodes g, ∀ other ∈ E.S.nodes g, ∀ uid, IsRecord E node uid → IsRecord E other uid →
    node = other
  /-- A `SUPERSEDES` edge is between records, and was recorded. -/
  supersedes : ∀ edge ∈ E.S.edges g, disclosureEdgeSupersedes E.T ∈ edge.labels →
    ∃ new old, Supersedes E g edge new old ∧ ∃ node ∈ E.S.nodes g,
      SaysKey E node (disclosureNodeReclass E.T) (text "reclass.pair") (old ++ text ">" ++ new)

theorem schema_empty : Schema E E.S.empty := by
  constructor <;> simp [E.S.nodes_empty, E.S.edges_empty]

variable {g : E.S.State}

theorem RecordAt.unique {id : Nat} {uid uid' : Bytes} (h : RecordAt E g id uid)
    (h' : RecordAt E g id uid') : uid = uid' := by
  obtain ⟨node, hnode, hid, hrec⟩ := h
  obtain ⟨node', hnode', hid', hrec'⟩ := h'
  have hsame : node = node' :=
    E.S.eq_of_id_eq g node hnode node' hnode' (hid.trans hid'.symm)
  exact (hsame ▸ hrec).unique hrec'

/-! ### Lookups -/

/-- The nodes under a key are those that the index has there, each once. -/
theorem nodesUnder_ok (g : E.S.State) (key value : Bytes) :
    ∃ found, nodesUnder E g key value = .ok found ∧
    found.Nodup ∧ ∀ node, node ∈ found ↔ node ∈ E.S.nodes g ∧ E.S.Indexed g node.id key value := by
  obtain ⟨ids, hids, hnodup, hmem⟩ := E.S.nodesByProperty_ok g key value
  rw [nodesUnder, hids]
  show ∃ found, (if ids = [] then _ else _) = _ ∧ _
  split_ifs with hnil
  · refine ⟨[], rfl, .nil, fun node => ⟨nofun, fun h => ?_⟩⟩
    have hid := (hmem node.id).mpr h.2
    rw [hnil] at hid
    exact absurd hid not_mem_nil
  · obtain ⟨found, hfound, hnodup', hmem'⟩ := E.S.getNodes_ok g ids hnodup
    refine ⟨found, by rw [hfound]; rfl, hnodup', fun node => ?_⟩
    rw [hmem', hmem]

/-- What a lookup of a label's key goes by. -/
theorem Schema.nodesUnder (h : Schema E g) (label : Nat) (key value : Bytes) :
    ∃ found, Builtin.nodesUnder E g key value = .ok found ∧
      (found.filter fun node => label ∈ node.labels).Nodup ∧
      ∀ node, node ∈ found.filter (fun node => label ∈ node.labels) ↔
        node ∈ E.S.nodes g ∧ key ∈ disclosureKeys E.T label ∧ SaysKey E node label key value := by
  obtain ⟨found, hfound, hnodup, hmem⟩ := nodesUnder_ok g key value
  refine ⟨found, hfound, hnodup.filter _, fun node => ?_⟩
  rw [mem_filter, hmem, decide_eq_true_iff]
  constructor
  -- what the store has indexed is what the node's label and properties say
  · rintro ⟨⟨hnode, hindexed⟩, hlab⟩
    obtain ⟨label', ps, htold, hkeys⟩ := h.indexed node hnode
    obtain ⟨hkey, hval⟩ := mem_lookupKeys.mp ((hkeys key value).mp hindexed)
    rw [htold.1, mem_singleton] at hlab
    subst hlab
    exact ⟨hnode, hkey, ps, htold, hval⟩
  · rintro ⟨hnode, hkey, ps, htold, hval⟩
    obtain ⟨label', ps', htold', hkeys⟩ := h.indexed node hnode
    obtain ⟨rfl, rfl⟩ := htold.unique htold'
    refine ⟨⟨hnode, (hkeys key value).mpr (mem_lookupKeys.mpr ⟨hkey, hval⟩)⟩, ?_⟩
    rw [htold.1]
    exact mem_singleton.mpr rfl

theorem disclosureDecode_of_told {ps : Props}
    (h : Says E node label ps) : disclosureDecode E node = .ok ⟨node.id, ps⟩ := by
  rw [disclosureDecode, h.2]

/-- Where nothing is found, no node says what was asked for. -/
theorem Schema.not_says_of_find (h : Schema E g) (hkey : key ∈ disclosureKeys E.T label)
    (hfind : disclosureFind E g label key value = .ok none) :
    ∀ node ∈ E.S.nodes g, ¬ SaysKey E node label key value := by
  intro node hnode htold
  obtain ⟨found, hfound, -, hmem⟩ := h.nodesUnder label key value
  have hin := (hmem node).mpr ⟨hnode, hkey, htold⟩
  rw [disclosureFind, hfound] at hfind
  dsimp only [Except.bind] at hfind
  split at hfind
  · next hnil =>
    rw [hnil] at hin
    exact not_mem_nil hin
  · obtain ⟨_, -, hsome⟩ := Result.ok_of_map hfind
    cases hsome
  · cases hfind

/-- What is found says what was asked for. -/
theorem Schema.says_of_find (h : Schema E g)
    {found : DisclosureNode} (hfind : disclosureFind E g label key value = .ok (some found)) :
    ∃ node ∈ E.S.nodes g, node.id = found.id ∧ SaysKey E node label key value := by
  obtain ⟨nodes, hnodes, -, hmem⟩ := h.nodesUnder label key value
  rw [disclosureFind, hnodes] at hfind
  dsimp only [Except.bind] at hfind
  split at hfind
  · cases hfind
  · next node hone =>
    obtain ⟨hnode, -, props, htold, hval⟩ := (hmem node).mp (by rw [hone]; exact mem_cons_self)
    rw [disclosureDecode_of_told htold] at hfind
    obtain rfl := Option.some.inj (Except.ok.inj hfind)
    exact ⟨node, hnode, rfl, props, htold, hval⟩
  · cases hfind

section

variable (T : StoreTypes)

@[simp] theorem customNodeType_inj (m n : Nat) :
    customNodeType T m = customNodeType T n ↔ m = n := by
  rw [customNodeType, customNodeType, Nat.add_left_cancel_iff]

@[simp] theorem customNodeType_ne_case (n : Nat) : customNodeType T n ≠ T.case := by
  have := T.case_lt
  rw [customNodeType]
  omega

@[simp] theorem customEdgeType_inj (m n : Nat) :
    customEdgeType T m = customEdgeType T n ↔ m = n := by
  rw [customEdgeType, customEdgeType, Nat.add_left_cancel_iff]

theorem mem_disclosureKeys_record :
    text "record.uid" ∈ disclosureKeys T (disclosureNodeRecord T) := by
  simp [disclosureKeys, disclosureNodeRecord, disclosureNodeCase, disclosureNodeActor]

theorem mem_disclosureKeys_reclass :
    text "reclass.pair" ∈ disclosureKeys T (disclosureNodeReclass T) := by
  simp [disclosureKeys, disclosureNodeRecord, disclosureNodeCase, disclosureNodeActor,
    disclosureNodeClass, disclosureNodeView, disclosureNodeReclass]

theorem mem_disclosureKeys_version :
    text "redaction.line" ∈ disclosureKeys T (disclosureNodeRedactionVersion T) := by
  simp [disclosureKeys, disclosureNodeRecord, disclosureNodeCase, disclosureNodeActor,
    disclosureNodeClass, disclosureNodeView, disclosureNodeReclass, disclosureNodeClassEvent,
    disclosureNodeRedactionVersion]

end

/-- A record is found where it is. -/
theorem Schema.find_record (h : Schema E g) (uid : Bytes) :
    (∃ node ∈ E.S.nodes g, IsRecord E node uid ∧ ∃ ps,
      disclosureFind E g (disclosureNodeRecord E.T) (text "record.uid") uid =
        .ok (some ⟨node.id, ps⟩)) ∨ (∀ node ∈ E.S.nodes g, ¬ IsRecord E node uid) ∧
        disclosureFind E g (disclosureNodeRecord E.T) (text "record.uid") uid = .ok none := by
  have hkey := mem_disclosureKeys_record E.T
  obtain ⟨found, hfound, hnodup, hmem⟩ :=
    h.nodesUnder (disclosureNodeRecord E.T) (text "record.uid") uid
  by_cases hex : ∃ node ∈ E.S.nodes g, IsRecord E node uid
  · obtain ⟨node, hnode, hrec⟩ := hex
    -- a uid has one record, so the lookup is not ambiguous
    have hone : found.filter (fun node => disclosureNodeRecord E.T ∈ node.labels) = [node] := by
      rw [← perm_singleton, perm_ext_iff_of_nodup hnodup (nodup_singleton node)]
      intro other
      rw [hmem, mem_singleton]
      constructor
      · exact fun hoth => h.unique other hoth.1 node hnode uid hoth.2.2 hrec
      · rintro rfl
        exact ⟨hnode, hkey, hrec⟩
    obtain ⟨ps, htold, hval⟩ := hrec
    refine .inl ⟨node, hnode, ⟨ps, htold, hval⟩, ps, ?_⟩
    rw [disclosureFind, hfound]
    dsimp only [Except.bind]
    rw [hone]
    dsimp only
    rw [disclosureDecode_of_told htold]
    rfl
  · have hnone : found.filter (fun node => disclosureNodeRecord E.T ∈ node.labels) = [] := by
      rw [eq_nil_iff_forall_not_mem]
      exact fun node hnode => hex ⟨node, ((hmem node).mp hnode).1, ((hmem node).mp hnode).2.2⟩
    refine .inr ⟨fun node hnode hrec => hex ⟨node, hnode, hrec⟩, ?_⟩
    rw [disclosureFind, hfound]
    dsimp only [Except.bind]
    rw [hnone]

end Mutant.Builtin
