import Mutant.Builtin.Equiv.RedactionVersion

/-!
# What the ledger's writes do to its lines

A version keys its line (`Schema.redactionWrite`), a recorded reclassification adds a parent
(`Schema.reclassTransaction`), and nothing else that a transaction writes touches a line (`Writes`).
What a write does to the nodes and edges of a ledger is what the laws of its store say.
-/

namespace Mutant.Builtin

open List Result Mutant.Ledger
open Mutant.Security (Bytes text)

variable {id lab src dst : Nat} {uid blob line : Bytes} {ents labels : List (Bytes × Bytes)}
  {props : Props} {mustMatch : List Bytes} {new : Bool} {head : Option CaseChainEvent}
  {ev : CaseChainEvent} {ts : RedactionTerms}

variable {E : LedgerEnv} {g g' : E.S.State}

/-! ### One node -/

theorem RecordAt.mono (hsub : ∀ node ∈ E.S.nodes g, node ∈ E.S.nodes g')
    (h : RecordAt E g id uid) : RecordAt E g' id uid := by
  obtain ⟨node, hnode, hid, hrec⟩ := h
  exact ⟨node, hsub node hnode, hid, hrec⟩

/-- A node that `node` writes says what it was given. -/
theorem says_new (hblob : E.C.encode props = some blob)
    (id : Nat) : Says E ⟨id, [lab], blob⟩ lab props :=
  ⟨rfl, E.C.decode_encode props blob hblob⟩

section

variable {new : Nat} (hadd : E.S.addNode g [lab] blob ents = .ok (new, g'))

include hadd

theorem mem_addNode {node : Node} :
    node ∈ E.S.nodes g' ↔ node ∈ E.S.nodes g ∨ node = ⟨new, [lab], blob⟩ :=
  (E.S.addNode_ok g [lab] blob ents new g' hadd).2.1 node

theorem nodes_subset : ∀ node ∈ E.S.nodes g, node ∈ E.S.nodes g' :=
  fun _ hnode => (mem_addNode hadd).mpr (.inl hnode)

theorem RecordAt.ne_new (h : RecordAt E g id uid) : id ≠ new := by
  obtain ⟨node, hnode, rfl, -⟩ := h
  exact (E.S.addNode_ok g [lab] blob ents new g' hadd).1 node hnode

theorem recordAt_addNode (hid : id ≠ new) : RecordAt E g' id uid ↔ RecordAt E g id uid := by
  constructor
  · rintro ⟨node, hnode, rfl, hrec⟩
    obtain hnode | rfl := (mem_addNode hadd).mp hnode
    · exact ⟨node, hnode, rfl, hrec⟩
    · exact absurd rfl hid
  · exact RecordAt.mono (nodes_subset hadd)

/-- The index has the keys of the new node, and what it had. -/
theorem indexed_addNode (h : Schema E g) (hblob : E.C.encode props = some blob)
    (hents : ents = lookupKeys E lab props) : ∀ node ∈ E.S.nodes g', ∃ label props,
      Says E node label props ∧ ∀ key value,
        E.S.Indexed g' node.id key value ↔ (key, value) ∈ lookupKeys E label props := by
  obtain ⟨hfresh, hmem, -, hindex⟩ := E.S.addNode_ok g [lab] blob ents new g' hadd
  intro node hnode
  obtain hnode | rfl := (hmem node).mp hnode
  · obtain ⟨label, ps, htold, hkeys⟩ := h.indexed node hnode
    refine ⟨label, ps, htold, fun key value => ?_⟩
    rw [hindex, if_neg (hfresh node hnode), hkeys]
  · refine ⟨lab, props, says_new hblob new, fun key value => ?_⟩
    rw [hindex, if_pos rfl, hents]

/-- A node is added: one of a record, where there is none with its uid. -/
theorem Schema.addNode (h : Schema E g) (hblob : E.C.encode props = some blob)
    (hents : ents = lookupKeys E lab props)
    (hrec : lab = disclosureNodeRecord E.T →
      ∃ uid, KeyMap.get? (text "record.uid") props.entries = some uid ∧
        ∀ node ∈ E.S.nodes g, ¬ IsRecord E node uid) : Schema E g' := by
  have hnew : Says E ⟨new, [lab], blob⟩ lab props := says_new hblob new
  have hmono := nodes_subset hadd
  -- no other node has the uid of the new one
  have hfresh : ∀ node ∈ E.S.nodes g, ∀ uid, IsRecord E node uid →
      ¬ IsRecord E ⟨new, [lab], blob⟩ uid := by
    rintro node hnode uid hnode' ⟨ps', htold, huid⟩
    obtain ⟨rfl, rfl⟩ := hnew.unique htold
    obtain ⟨uid', huid', hnone⟩ := hrec rfl
    obtain rfl := Option.some.inj (huid.symm.trans huid')
    exact hnone node hnode hnode'
  refine ⟨indexed_addNode hadd h hblob hents, ?_, ?_, ?_⟩
  · intro node hnode ps' htold
    obtain hnode | rfl := (mem_addNode hadd).mp hnode
    · exact h.record node hnode ps' htold
    · obtain ⟨rfl, rfl⟩ := hnew.unique htold
      obtain ⟨uid, huid, -⟩ := hrec rfl
      exact ⟨uid, props, htold, huid⟩
  · intro node hnode other hoth uid hrec' hrec''
    obtain hnode | rfl := (mem_addNode hadd).mp hnode
    · obtain hoth | rfl := (mem_addNode hadd).mp hoth
      · exact h.unique node hnode other hoth uid hrec' hrec''
      · exact absurd hrec'' (hfresh node hnode uid hrec')
    · obtain hoth | rfl := (mem_addNode hadd).mp hoth
      · exact absurd hrec' (hfresh other hoth uid hrec'')
      · rfl
  · intro edge hedge hlab
    rw [(E.S.addNode_ok g [lab] blob ents new g' hadd).2.2.1] at hedge
    obtain ⟨new, old, ⟨_, hsrc, hdst⟩, node, hnode, hpair⟩ := h.supersedes edge hedge hlab
    exact ⟨new, old, ⟨hlab, hsrc.mono hmono, hdst.mono hmono⟩, node, hmono node hnode, hpair⟩

/-- The ends of the edges are not the new node. -/
theorem Schema.over_addNode (h : Schema E g) {uid old : Bytes} :
    (lineage E g').above uid old ↔ (lineage E g).above uid old := by
  have hedge : ∀ edge ∈ E.S.edges g,
      (Supersedes E g' edge uid old ↔ Supersedes E g edge uid old) := by
    intro edge hedge
    refine and_congr_right fun hlab => ?_
    obtain ⟨_, _, ⟨_, hsrc, hdst⟩, -⟩ := h.supersedes edge hedge hlab
    rw [recordAt_addNode hadd (hsrc.ne_new hadd), recordAt_addNode hadd (hdst.ne_new hadd)]
  have hedges := (E.S.addNode_ok g [lab] blob ents new g' hadd).2.2.1
  constructor
  · rintro ⟨edge, hmem, hsup⟩
    rw [hedges] at hmem
    exact ⟨edge, hmem, (hedge edge hmem).mp hsup⟩
  · rintro ⟨edge, hmem, hsup⟩
    exact ⟨edge, by rwa [hedges], (hedge edge hmem).mpr hsup⟩

/-- A node that is no version changes no line. -/
theorem Schema.lineage_addNode (h : Schema E g) (hblob : E.C.encode props = some blob)
    (hlab : lab ≠ disclosureNodeRedactionVersion E.T) : lineage E g' = lineage E g := by
  ext line old
  · constructor
    · rintro ⟨node, hnode, hline⟩
      obtain hnode | rfl := (mem_addNode hadd).mp hnode
      · exact ⟨node, hnode, hline⟩
      · obtain ⟨_, htold, -⟩ := hline
        exact absurd ((says_new hblob _).unique htold).1 hlab
    · rintro ⟨node, hnode, hline⟩
      exact ⟨node, nodes_subset hadd node hnode, hline⟩
  · exact h.over_addNode hadd

/-- A version keys the line it names. -/
theorem Schema.lineage_addVersion (h : Schema E g) (hblob : E.C.encode props = some blob)
    (hlab : lab = disclosureNodeRedactionVersion E.T)
    (hline : KeyMap.get? (text "redaction.line") props.entries = some line) :
    lineage E g' = (lineage E g).key line := by
  subst hlab
  have hnew : Says E ⟨new, [disclosureNodeRedactionVersion E.T], blob⟩
      (disclosureNodeRedactionVersion E.T) props := says_new hblob new
  ext l old
  · constructor
    · rintro ⟨node, hnode, htold⟩
      obtain hnode | rfl := (mem_addNode hadd).mp hnode
      · exact .inl ⟨node, hnode, htold⟩
      · exact .inr (htold.unique ⟨props, hnew, hline⟩)
    · rintro (⟨node, hnode, htold⟩ | rfl)
      · exact ⟨node, nodes_subset hadd node hnode, htold⟩
      · exact ⟨_, (mem_addNode hadd).mpr (.inr rfl), props, hnew, hline⟩
  · exact h.over_addNode hadd

end

/-! ### One edge -/

section

variable (hadd : E.S.addEdge g src dst [lab] blob = .ok g')

include hadd

theorem mem_addEdge : ∃ id, ∀ edge, edge ∈ E.S.edges g' ↔
    edge ∈ E.S.edges g ∨ edge = ⟨id, src, dst, [lab], blob⟩ :=
  (E.S.addEdge_ok g src dst [lab] blob g' hadd).2.2

/-- What is said of nodes stays as it is. -/
theorem nodes_addEdge : E.S.nodes g' = E.S.nodes g :=
  (E.S.addEdge_ok g src dst [lab] blob g' hadd).1

theorem recordAt_addEdge : RecordAt E g' id uid ↔ RecordAt E g id uid := by
  rw [RecordAt, RecordAt, nodes_addEdge hadd]

/-- A ledger with one edge more, which says what it has to if it supersedes. -/
theorem Schema.addEdge (h : Schema E g) (hsup : lab = disclosureEdgeSupersedes E.T →
      ∃ new old, RecordAt E g src new ∧ RecordAt E g dst old ∧ ∃ node ∈ E.S.nodes g,
        SaysKey E node (disclosureNodeReclass E.T) (text "reclass.pair") (old ++ text ">" ++ new)) :
    Schema E g' := by
  obtain ⟨hnodes, hindex, new, hmem⟩ := E.S.addEdge_ok g src dst [lab] blob g' hadd
  refine ⟨?_, ?_, ?_, ?_⟩
  · rw [hnodes, hindex]
    exact h.indexed
  · rw [hnodes]
    exact h.record
  · rw [hnodes]
    exact h.unique
  · intro edge hedge hlab
    rw [hnodes]
    simp only [Supersedes, recordAt_addEdge hadd]
    obtain hedge | rfl := (hmem edge).mp hedge
    · exact h.supersedes edge hedge hlab
    · obtain ⟨new, old, hnew, hold, hpair⟩ := hsup (mem_singleton.mp hlab).symm
      exact ⟨new, old, ⟨hlab, hnew, hold⟩, hpair⟩

theorem keyed_addEdge (line : Bytes) : (lineage E g').keyed line ↔ (lineage E g).keyed line := by
  simp only [lineage, nodes_addEdge hadd]

/-- An edge that is no reclassification changes no line. -/
theorem lineage_addEdge (hlab : lab ≠ disclosureEdgeSupersedes E.T) :
    lineage E g' = lineage E g := by
  obtain ⟨new, hmem⟩ := mem_addEdge hadd
  ext line old
  · exact keyed_addEdge hadd line
  · simp only [lineage, Supersedes, recordAt_addEdge hadd]
    constructor
    · rintro ⟨edge, hedge, hsup⟩
      obtain hedge | rfl := (hmem edge).mp hedge
      · exact ⟨edge, hedge, hsup⟩
      · exact absurd (mem_singleton.mp hsup.1).symm hlab
    · rintro ⟨edge, hedge, hsup⟩
      exact ⟨edge, (hmem edge).mpr (.inl hedge), hsup⟩

/-- A `SUPERSEDES` edge between records. -/
theorem lineage_addSupersedes {new old : Bytes} (hlab : lab = disclosureEdgeSupersedes E.T)
    (hnew : RecordAt E g src new) (hold : RecordAt E g dst old) :
    lineage E g' = (lineage E g).add new old := by
  obtain ⟨fresh, hmem⟩ := mem_addEdge hadd
  ext n o
  · exact keyed_addEdge hadd n
  · simp only [lineage, Supersedes, recordAt_addEdge hadd, Lineage.State.add]
    constructor
    · rintro ⟨edge, hedge, hsup⟩
      obtain hedge | rfl := (hmem edge).mp hedge
      · exact .inl ⟨edge, hedge, hsup⟩
      · exact .inr ⟨RecordAt.unique hsup.2.1 hnew, RecordAt.unique hsup.2.2 hold⟩
    · rintro (⟨edge, hedge, hsup⟩ | ⟨rfl, rfl⟩)
      · exact ⟨edge, (hmem edge).mpr (.inl hedge), hsup⟩
      · exact ⟨_, (hmem _).mpr (.inr rfl), mem_singleton.mpr hlab.symm, hnew, hold⟩

end

/-! ### Transactions -/

/-- The key under which `findOrAdd` keeps a record's node. -/
def recordKey (E : LedgerEnv) (uid : Bytes) : Nat × Bytes × Bytes :=
  (disclosureNodeRecord E.T, text "record.uid", uid)

/-- A transaction under way: what the ledger with its writes says of lines is `s`, and its records
are those of the ledger and those it has added. -/
structure TxKeeps (E : LedgerEnv) (s : Lineage.State Bytes) (tx : DisclosureTx E) : Prop where
  ledger : Schema E tx.ledger
  schema : Schema E tx.graph
  lineage : lineage E tx.graph = s
  grown : ∀ node ∈ E.S.nodes tx.ledger, node ∈ E.S.nodes tx.graph
  added : ∀ uid found, (recordKey E uid, found) ∈ tx.added → RecordAt E tx.graph found.id uid
  buffered : ∀ node ∈ E.S.nodes tx.graph, ∀ uid, IsRecord E node uid →
    (∃ node ∈ E.S.nodes tx.ledger, IsRecord E node uid) ∨ ∃ found, (recordKey E uid, found) ∈ tx.added

theorem txKeeps_begin (h : Schema E g) : TxKeeps E (lineage E g) (disclosureBegin E g) :=
  ⟨h, h, rfl, fun _ hnode => hnode, fun _ _ hmem => absurd hmem not_mem_nil,
    fun node hnode _ hrec => .inl ⟨node, hnode, hrec⟩⟩

/-- Writes that touch no line. -/
structure Writes (E : LedgerEnv) (tx tx' : DisclosureTx E) : Prop where
  grown : ∀ node ∈ E.S.nodes tx.graph, node ∈ E.S.nodes tx'.graph
  keeps : ∀ s, TxKeeps E s tx → TxKeeps E s tx'

variable {tx tx' tx'' : DisclosureTx E} {s : Lineage.State Bytes}

theorem Writes.refl (tx : DisclosureTx E) : Writes E tx tx := ⟨fun _ h => h, fun _ h => h⟩

theorem Writes.trans (h : Writes E tx tx') (h' : Writes E tx' tx'') : Writes E tx tx'' :=
  ⟨fun node hnode => h'.grown node (h.grown node hnode), fun s hs => h'.keeps s (h.keeps s hs)⟩

theorem edge_eq (h : tx.edge E src dst lab props = .ok tx') :
    ∃ blob g', E.S.addEdge tx.graph src dst [lab] blob = .ok g' ∧ tx' = { tx with graph := g' } := by
  rw [DisclosureTx.edge] at h
  split at h
  · cases h
  · next blob _ =>
    obtain ⟨g', hadd, rfl⟩ := ok_of_map h
    exact ⟨blob, g', ok_of_mapError hadd, rfl⟩

/-- A transaction that adds a node has encoded its properties and added it to its ledger. -/
theorem node_eq (h : tx.node E lab props = .ok (id, tx')) :
    ∃ blob g', E.C.encode props = some blob ∧
      E.S.addNode tx.graph [lab] blob (lookupKeys E lab props) = .ok (id, g') ∧
        tx' = { tx with graph := g' } := by
  rw [DisclosureTx.node] at h
  split at h
  · cases h
  · next blob hblob =>
    obtain ⟨⟨id', g'⟩, hadd, heq⟩ := ok_of_map h
    obtain ⟨rfl, rfl⟩ := Prod.mk.inj heq
    exact ⟨blob, g', hblob, ok_of_mapError hadd, rfl⟩

/-- A transaction after an edge more. -/
theorem TxKeeps.addEdge {s' : Lineage.State Bytes} (hs : TxKeeps E s tx)
    (hadd : E.S.addEdge tx.graph src dst [lab] blob = .ok g') (hsch : Schema E g')
    (hlin : Builtin.lineage E g' = s') : TxKeeps E s' { tx with graph := g' } := by
  refine ⟨hs.ledger, hsch, hlin, ?_, ?_, ?_⟩
  · rw [nodes_addEdge hadd]
    exact hs.grown
  · exact fun uid found hmem => (recordAt_addEdge hadd).mpr (hs.added uid found hmem)
  · rw [nodes_addEdge hadd]
    exact hs.buffered

theorem writes_edge {kind : Nat} (hkind : kind ≠ disclosureTypeBase + 7)
    (h : tx.edge E src dst (customEdgeType E.T kind) props = .ok tx') : Writes E tx tx' := by
  obtain ⟨blob, g', hadd, rfl⟩ := edge_eq h
  have hlab : customEdgeType E.T kind ≠ disclosureEdgeSupersedes E.T :=
    (customEdgeType_inj E.T _ _).not.mpr hkind
  have hnodes := nodes_addEdge hadd
  refine ⟨fun _ hnode => by rwa [hnodes], fun s hs => ?_⟩
  exact hs.addEdge hadd (hs.schema.addEdge hadd fun heq => absurd heq hlab)
    ((lineage_addEdge hadd hlab).trans hs.lineage)

/-- A node of another label than a record's. -/
theorem TxKeeps.node {s' : Lineage.State Bytes}
    (hs : TxKeeps E s tx) (hrec : lab ≠ disclosureNodeRecord E.T)
    (hlin : ∀ blob g', E.C.encode props = some blob →
      E.S.addNode tx.graph [lab] blob (lookupKeys E lab props) = .ok (id, g') →
        Builtin.lineage E g' = s')
    (h : tx.node E lab props = .ok (id, tx')) : TxKeeps E s' tx' := by
  obtain ⟨blob, g', hblob, hadd, rfl⟩ := node_eq h
  have hgr := nodes_subset hadd
  refine ⟨hs.ledger, hs.schema.addNode hadd hblob rfl (fun h => absurd h hrec),
    hlin blob g' hblob hadd, ?_, ?_, ?_⟩
  · exact fun node hnode => hgr node (hs.grown node hnode)
  · exact fun uid found hmem => (hs.added uid found hmem).mono hgr
  · intro node hnode uid huid
    obtain hnode | rfl := (mem_addNode hadd).mp hnode
    · exact hs.buffered node hnode uid huid
    · obtain ⟨_, htold, -⟩ := huid
      exact absurd ((says_new hblob _).unique htold).1 hrec

/-- A node of another label than a record's or a version's. -/
theorem writes_node (hrec : lab ≠ disclosureNodeRecord E.T)
    (hver : lab ≠ disclosureNodeRedactionVersion E.T) (h : tx.node E lab props = .ok (id, tx')) :
    Writes E tx tx' ∧ ∃ node ∈ E.S.nodes tx'.graph, Says E node lab props := by
  obtain ⟨blob, g', hblob, hadd, rfl⟩ := node_eq h
  refine ⟨⟨nodes_subset hadd, fun s hs => ?_⟩, _, (mem_addNode hadd).mpr (.inr rfl),
    says_new hblob _⟩
  refine hs.node hrec (fun blob g' hblob hadd => ?_) h
  exact (hs.schema.lineage_addNode hadd hblob hver).trans hs.lineage

/-- What `findOrAdd` does: it finds a node, or adds one. -/
theorem findOrAdd_cases {key : Bytes} (h : tx.findOrAdd E lab key props mustMatch = .ok (id, new, tx')) :
    (∃ found, tx.find E lab key (props.get key) = .ok (some found) ∧ id = found.id ∧ tx' = tx) ∨
      tx.find E lab key (props.get key) = .ok none ∧ ∃ tx₁,
        tx.node E lab props = .ok (id, tx₁) ∧
          tx' = { tx₁ with added := ((lab, key, props.get key), ⟨id, props⟩) :: tx₁.added } := by
  obtain ⟨found, hfind, hrest⟩ := ok_of_bind h
  cases found with
  | some found =>
    refine .inl ⟨found, hfind, ?_⟩
    dsimp only at hrest
    split at hrest
    · cases hrest
    · obtain ⟨rfl, hpair⟩ := Prod.mk.inj (Except.ok.inj hrest)
      exact ⟨rfl, (Prod.mk.inj hpair).2.symm⟩
  | none =>
    refine .inr ⟨hfind, ?_⟩
    obtain ⟨⟨id', tx₁⟩, hnode, heq⟩ := ok_of_map hrest
    obtain ⟨rfl, hpair⟩ := Prod.mk.inj heq
    exact ⟨tx₁, hnode, (Prod.mk.inj hpair).2.symm⟩

/-- Finding or adding a node that is neither a record nor a version touches no line. -/
theorem writes_findOrAdd {key : Bytes} (hrec : lab ≠ disclosureNodeRecord E.T)
    (hver : lab ≠ disclosureNodeRedactionVersion E.T)
    (h : tx.findOrAdd E lab key props mustMatch = .ok (id, new, tx')) : Writes E tx tx' := by
  obtain ⟨found, -, -, rfl⟩ | ⟨-, tx₁, hnode, rfl⟩ := findOrAdd_cases h
  · exact .refl _
  · refine (writes_node hrec hver hnode).1.trans ⟨fun _ h => h, fun s hs => ?_⟩
    refine ⟨hs.ledger, hs.schema, hs.lineage, hs.grown, ?_, ?_⟩
    · intro uid found hmem
      obtain heq | hmem := mem_cons.mp hmem
      · exact absurd (Prod.mk.inj (Prod.mk.inj heq).1).1.symm hrec
      · exact hs.added uid found hmem
    · intro node hnode uid huid
      refine (hs.buffered node hnode uid huid).imp_right ?_
      exact fun ⟨found, hmem⟩ => ⟨found, mem_cons_of_mem _ hmem⟩

/-- The node of a record that is looked up: in the ledger, or added before. -/
theorem recordAt_of_find (hs : TxKeeps E s tx) {found : DisclosureNode}
    (h : tx.find E (disclosureNodeRecord E.T) (text "record.uid") uid = .ok (some found)) :
    RecordAt E tx.graph found.id uid := by
  rw [DisclosureTx.find] at h
  cases hlook : tx.added.lookup (disclosureNodeRecord E.T, text "record.uid", uid) with
  | some buffered =>
    rw [hlook] at h
    obtain rfl := Option.some.inj (Except.ok.inj h)
    obtain ⟨pre, after, hadded, -⟩ := lookup_eq_some_iff.mp hlook
    refine hs.added uid buffered ?_
    rw [hadded]
    exact mem_append_right _ mem_cons_self
  | none =>
    rw [hlook] at h
    obtain ⟨node, hnode, hid, hrec⟩ := hs.ledger.says_of_find h
    exact ⟨node, hs.grown node hnode, hid, hrec⟩

/-- A record that is not found is not there. -/
theorem not_isRecord_of_find (hs : TxKeeps E s tx)
    (h : tx.find E (disclosureNodeRecord E.T) (text "record.uid") uid = .ok none) :
    ∀ node ∈ E.S.nodes tx.graph, ¬ IsRecord E node uid := by
  intro node hnode hrec
  rw [DisclosureTx.find] at h
  cases hlook : tx.added.lookup (disclosureNodeRecord E.T, text "record.uid", uid) with
  | some buffered =>
    rw [hlook] at h
    cases h
  | none =>
    rw [hlook] at h
    obtain ⟨other, hoth, hrec'⟩ | ⟨found, hmem⟩ := hs.buffered node hnode uid hrec
    · exact hs.ledger.not_says_of_find (mem_disclosureKeys_record E.T) h other hoth hrec'
    · have hne := lookup_eq_none_iff.mp hlook _ hmem
      simp [recordKey] at hne

/-- A record's node is found or added. -/
theorem writes_findOrAdd_record (huid : KeyMap.get? (text "record.uid") props.entries = some uid)
    (h : tx.findOrAdd E (disclosureNodeRecord E.T) (text "record.uid") props mustMatch =
      .ok (id, new, tx')) :
    Writes E tx tx' ∧ ∀ s, TxKeeps E s tx → RecordAt E tx'.graph id uid := by
  have hget : props.get (text "record.uid") = uid := by
    rw [Props.get, huid]
    rfl
  have hcases := findOrAdd_cases h
  rw [hget] at hcases
  -- found in the ledger or in the transaction's own buffer, or added
  obtain ⟨found, hfind, rfl, rfl⟩ | ⟨hfind, tx₁, hnode, rfl⟩ := hcases
  · exact ⟨.refl _, fun s hs => recordAt_of_find hs hfind⟩
  · obtain ⟨blob, g', hblob, hadd, rfl⟩ := node_eq hnode
    have hgr := nodes_subset hadd
    have hnew : IsRecord E ⟨id, [disclosureNodeRecord E.T], blob⟩ uid :=
      ⟨props, says_new hblob _, huid⟩
    have hat : RecordAt E g' id uid := ⟨_, (mem_addNode hadd).mpr (.inr rfl), rfl, hnew⟩
    -- the buffer now answers for the new record as well
    refine ⟨⟨hgr, fun s hs => ⟨hs.ledger, ?_, ?_, ?_, ?_, ?_⟩⟩, fun _ _ => hat⟩
    · exact hs.schema.addNode hadd hblob rfl fun _ => ⟨uid, huid, not_isRecord_of_find hs hfind⟩
    · refine (hs.schema.lineage_addNode hadd hblob ?_).trans hs.lineage
      simp [disclosureNodeRecord, disclosureNodeRedactionVersion]
    · exact fun node hnode => hgr node (hs.grown node hnode)
    · intro uid' found hmem
      obtain heq | hmem := mem_cons.mp hmem
      · obtain ⟨hkey, rfl⟩ := Prod.mk.inj heq
        obtain rfl : uid' = uid := (Prod.mk.inj (Prod.mk.inj hkey).2).2
        exact hat
      · exact (hs.added uid' found hmem).mono hgr
    · intro node hnode uid' huid'
      obtain hnode | rfl := (mem_addNode hadd).mp hnode
      · refine (hs.buffered node hnode uid' huid').imp_right (Exists.imp ?_)
        exact fun found hmem => mem_cons_of_mem _ hmem
      · obtain rfl := huid'.unique hnew
        exact .inr ⟨_, mem_cons_self⟩

/-! ### The nodes of a transaction -/

theorem writes_caseNode {caseUID caseID : Bytes}
    (h : tx.caseNode E caseUID caseID = .ok (id, new, tx')) : Writes E tx tx' := by
  refine writes_findOrAdd (Ne.symm ?_) (Ne.symm ?_) h
  · exact customNodeType_ne_case _ _
  · exact customNodeType_ne_case _ _

theorem writes_actorNode {name : Bytes}
    (h : tx.actorNode E name = .ok (id, new, tx')) : Writes E tx tx' := by
  apply writes_findOrAdd ?_ ?_ h
  all_goals simp [disclosureNodeActor, disclosureNodeRecord, disclosureNodeRedactionVersion]

theorem writes_classNode {tag : Bytes}
    (h : tx.classNode E labels tag = .ok (id, new, tx')) : Writes E tx tx' := by
  apply writes_findOrAdd ?_ ?_ h
  all_goals simp [disclosureNodeClass, disclosureNodeRecord, disclosureNodeRedactionVersion]

theorem writes_classifiedAs {record : Nat} {tally : Bytes × Nat × Nat}
    (h : tx.classifiedAs E labels record tally = .ok tx') : Writes E tx tx' := by
  obtain ⟨⟨id, new, tx₁⟩, hclass, hedge⟩ := ok_of_bind h
  exact (writes_classNode hclass).trans (writes_edge (by decide) hedge)

theorem writes_grants {view : Nat} {tag : Bytes}
    (h : tx.grants E labels view tag = .ok tx') : Writes E tx tx' := by
  obtain ⟨⟨id, new, tx₁⟩, hclass, hedge⟩ := ok_of_bind h
  exact (writes_classNode hclass).trans (writes_edge (by decide) hedge)

theorem get?_set (props : Props) (key v k : Bytes) :
    KeyMap.get? k (props.set key v).entries =
      if key = k then some v else KeyMap.get? k props.entries :=
  KeyMap.get?_insert ..

/-- A record's node is there after it is written. -/
theorem writes_recordNode {record : LedgerRecord} {caseN : Nat}
    (h : tx.recordNode E labels record caseN = .ok (id, tx')) :
    Writes E tx tx' ∧ ∀ s, TxKeeps E s tx → RecordAt E tx'.graph id record.uid := by
  obtain ⟨⟨id', new, tx₁⟩, hfind, hrest⟩ := ok_of_bind h
  have huid : KeyMap.get? (text "record.uid") record.props.entries = some record.uid := by
    rw [LedgerRecord.props, get?_set, if_pos rfl]
  obtain ⟨hwr, hat⟩ := writes_findOrAdd_record huid hfind
  -- a record that was there already gets no edges
  cases new with
  | false =>
    cases hrest
    exact ⟨hwr, hat⟩
  | true =>
    obtain ⟨tx₂, hedge, hrest⟩ := ok_of_bind hrest
    obtain ⟨tx₃, hclasses, heq⟩ := ok_of_map hrest
    obtain ⟨rfl, rfl⟩ := Prod.mk.inj heq
    have hcase : Writes E tx₁ tx₂ := writes_edge (by decide) hedge
    have hmore : Writes E tx₂ tx₃ := rel_of_foldlM Writes.refl
      (fun _ _ _ => Writes.trans) (fun _ _ _ => writes_classifiedAs) hclasses
    refine ⟨hwr.trans (hcase.trans hmore), fun s hs => ?_⟩
    exact (hat s hs).mono (hcase.trans hmore).grown

/-- Writing a view with its grants touches no line. -/
theorem writes_viewNode {view : CaseView}
    (h : tx.viewNode E labels view = .ok (id, tx')) : Writes E tx tx' := by
  obtain ⟨⟨id', new, tx₁⟩, hfind, hrest⟩ := ok_of_bind h
  have hwr : Writes E tx tx₁ := by
    apply writes_findOrAdd ?_ ?_ hfind
    all_goals simp [disclosureNodeView, disclosureNodeRecord, disclosureNodeRedactionVersion]
  cases new with
  | false =>
    cases hrest
    exact hwr
  | true =>
    obtain ⟨tx₂, hgrants, heq⟩ := ok_of_map hrest
    cases heq
    exact hwr.trans (rel_of_foldlM Writes.refl (fun _ _ _ => Writes.trans)
      (fun _ _ _ => writes_grants) hgrants)

/-! ### Versions -/

/-- A version that is written keys its line. -/
theorem keeps_chainEvent {chain : Bytes}
    (hline : KeyMap.get? (text "redaction.line") props.entries = some line)
    (h : tx.chainEvent E (redactionChain E) chain head props = .ok (ev, tx'))
    (hs : TxKeeps E s tx) : TxKeeps E (s.key line) tx' := by
  obtain ⟨⟨id, tx₁⟩, hnode, hrest⟩ := ok_of_bind h
  -- the chain's own fields leave the line as it was
  have hline' : KeyMap.get? (text "redaction.line")
      (chainAppend E.P (redactionChain E) chain head 0 props).props.entries =
      some line := by
    have hne (name : String) (h : text "redaction" ++ text "." ++ text name ≠ text "redaction.line") :
        (redactionChain E).key name ≠ text "redaction.line" := h
    rw [chainAppend, get?_set, if_neg (hne "uid" (by decide)), get?_set,
      if_neg (hne "prev_uid" (by decide)), get?_set, if_neg (hne "seq" (by decide)), get?_set,
      if_neg (hne "chain" (by decide)), hline]
  have hkd : TxKeeps E (s.key line) tx₁ := by
    refine hs.node ?_ (fun blob g' hblob hadd => ?_) hnode
    · simp [redactionChain, disclosureNodeRedactionVersion, disclosureNodeRecord]
    · rw [← hs.lineage]
      exact hs.schema.lineage_addVersion hadd hblob rfl hline'
  cases head with
  | none =>
    obtain ⟨-, rfl⟩ := Prod.mk.inj (Except.ok.inj hrest)
    exact hkd
  | some head =>
    obtain ⟨tx₂, hedge, heq⟩ := ok_of_map hrest
    obtain ⟨-, rfl⟩ := Prod.mk.inj heq
    exact (writes_edge (by decide) hedge).keeps _ hkd

/-- Appending a version keys its line, and its edges change nothing more. -/
theorem keeps_redactionAppend {caseN actorN recordN viewN : Nat}
    (h : redactionAppend E tx head ts line caseN actorN recordN viewN = .ok (ev, tx'))
    (hs : TxKeeps E s tx) : TxKeeps E (s.key line) tx' := by
  obtain ⟨⟨ev', tx₁⟩, hev, hrest⟩ := ok_of_bind h
  obtain ⟨tx₂, hcase, hrest⟩ := ok_of_bind hrest
  obtain ⟨tx₃, hgrants, hrest⟩ := ok_of_bind hrest
  obtain ⟨tx₄, hview, hrest⟩ := ok_of_bind hrest
  obtain ⟨tx₅, hactor, heq⟩ := ok_of_map hrest
  obtain ⟨-, rfl⟩ := Prod.mk.inj heq
  have hline : KeyMap.get? (text "redaction.line") (ts.props line).entries = some line := by
    rw [RedactionTerms.props, get?_set, if_pos rfl]
  have hcase : Writes E tx₁ tx₂ := writes_edge (by decide) hcase
  have hgrants : Writes E tx₂ tx₃ := writes_edge (by decide) hgrants
  have hview : Writes E tx₃ tx₄ := writes_edge (by decide) hview
  have hactor : Writes E tx₄ tx₅ := writes_edge (by decide) hactor
  exact (hcase.trans (hgrants.trans (hview.trans hactor))).keeps _ (keeps_chainEvent hline hev hs)

/-- A version that is written keys its line, and does nothing else. -/
theorem Schema.redactionWrite (h : Schema E g) {evs : List CaseChainEvent}
    (hwr : redactionWrite E g ts line evs = .ok (ev, g')) :
    Schema E g' ∧ lineage E g' = (lineage E g).key line := by
  obtain ⟨⟨caseN, _, tx₁⟩, hcase, hrest⟩ := ok_of_bind hwr
  obtain ⟨⟨actorN, _, tx₂⟩, hactor, hrest⟩ := ok_of_bind hrest
  obtain ⟨⟨recordN, tx₃⟩, hrec, hrest⟩ := ok_of_bind hrest
  obtain ⟨⟨viewN, tx₄⟩, hview, hrest⟩ := ok_of_bind hrest
  obtain ⟨⟨ev', tx₅⟩, hver, heq⟩ := ok_of_map hrest
  obtain ⟨-, rfl⟩ := Prod.mk.inj heq
  have hwrites : Writes E (disclosureBegin E g) tx₄ :=
    (writes_caseNode hcase).trans ((writes_actorNode hactor).trans
      ((writes_recordNode hrec).1.trans (writes_viewNode hview)))
  have hkeeps := keeps_redactionAppend hver (hwrites.keeps _ (txKeeps_begin h))
  exact ⟨hkeeps.schema, hkeeps.lineage⟩

/-! ### Reclassifications -/

/-- A reclassification that is recorded gives the record a parent, and does nothing else. -/
theorem Schema.reclassTransaction (h : Schema E g) {ts : ReclassTerms} {ev : Nat}
    (hwr : reclassTransaction E g ts = .ok (ev, g')) :
    Schema E g' ∧ lineage E g' = (lineage E g).add ts.newUID ts.oldUID := by
  obtain ⟨⟨caseN, _, tx₁⟩, hcase, hrest⟩ := ok_of_bind hwr
  obtain ⟨⟨actorN, _, tx₂⟩, hactor, hrest⟩ := ok_of_bind hrest
  obtain ⟨⟨currentN, tx₃⟩, hcur, hrest⟩ := ok_of_bind hrest
  obtain ⟨⟨previousN, tx₄⟩, hprev, hrest⟩ := ok_of_bind hrest
  obtain ⟨⟨eventN, tx₅⟩, hev, hrest⟩ := ok_of_bind hrest
  obtain ⟨tx₆, hsup, hrest⟩ := ok_of_bind hrest
  obtain ⟨tx₇, hincase, hrest⟩ := ok_of_bind hrest
  obtain ⟨tx₈, hperformed, heq⟩ := ok_of_map hrest
  obtain ⟨-, rfl⟩ := Prod.mk.inj heq
  -- before the edge: both records are there, and so is the event that records the pair
  have hkeeps₂ := ((writes_caseNode hcase).trans (writes_actorNode hactor)).keeps _ (txKeeps_begin h)
  obtain ⟨hwr₃, hnew⟩ := writes_recordNode hcur
  have hkeeps₃ := hwr₃.keeps _ hkeeps₂
  obtain ⟨hwr₄, hold⟩ := writes_recordNode hprev
  have hkeeps₄ := hwr₄.keeps _ hkeeps₃
  have hreclass : Writes E tx₄ tx₅ ∧ ∃ node ∈ E.S.nodes tx₅.graph,
      Says E node (disclosureNodeReclass E.T) ts.props := by
    apply writes_node ?_ ?_ hev
    all_goals simp [disclosureNodeReclass, disclosureNodeRecord, disclosureNodeRedactionVersion]
  obtain ⟨hwr₅, node, hnode, htold⟩ := hreclass
  have hkeeps₅ := hwr₅.keeps _ hkeeps₄
  have hpair : KeyMap.get? (text "reclass.pair") ts.props.entries = some ts.pair := by
    rw [ReclassTerms.props, get?_set, if_neg (by decide), get?_set, if_neg (by decide), get?_set,
      if_neg (by decide), get?_set, if_pos rfl]
  have hedge : TxKeeps E ((lineage E g).add ts.newUID ts.oldUID) tx₆ := by
    obtain ⟨blob, g', hadd, rfl⟩ := edge_eq hsup
    have hnew' := (hnew _ hkeeps₂).mono (hwr₄.trans hwr₅).grown
    have hold' := (hold _ hkeeps₃).mono hwr₅.grown
    apply hkeeps₅.addEdge hadd
    · exact hkeeps₅.schema.addEdge hadd fun _ =>
        ⟨_, _, hnew', hold', node, hnode, ts.props, htold, hpair⟩
    · rw [lineage_addSupersedes hadd rfl hnew' hold', hkeeps₅.lineage]
      rfl
  have hincase : Writes E tx₆ tx₇ := writes_edge (by decide) hincase
  have hperformed : Writes E tx₇ tx₈ := writes_edge (by decide) hperformed
  have hkeeps := (hincase.trans hperformed).keeps _ hedge
  exact ⟨hkeeps.schema, hkeeps.lineage⟩

end Mutant.Builtin
