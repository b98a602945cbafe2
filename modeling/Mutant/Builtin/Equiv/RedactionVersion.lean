import Mathlib.Data.List.Dedup
import Mutant.Builtin.DiscloseReclassify
import Mutant.Builtin.Equiv.LedgerSchema

/-!
# Lines of the ledger

The ledger's versions and reclassifications are a state of `Lineage`: a record is keyed when a
version is kept in its line, and the records it reclassifies are its parents.  `redactionLine` walks
that state (`redactionLine_eq_ok_iff`), and `reclassSupersessionPath` searches it.
-/

namespace Mutant.Builtin

open List Mutant.Ledger
open Mutant.Security (Bytes text)

variable {E : LedgerEnv} {g : E.S.State}

/-- What the ledger says of lines. -/
def lineage (E : LedgerEnv) (g : E.S.State) : Lineage.State Bytes where
  keyed line :=
    ∃ node ∈ E.S.nodes g, SaysKey E node (disclosureNodeRedactionVersion E.T) (text "redaction.line") line
  above new old := ∃ edge ∈ E.S.edges g, Supersedes E g edge new old

/-! ### The reads -/

/-- A record keys a line exactly when a version names it. -/
theorem Schema.keysALine (h : Schema E g) (uid : Bytes) :
    ∃ b, redactionKeysALine E g uid = .ok b ∧ (b = true ↔ (lineage E g).keyed uid) := by
  obtain ⟨found, hfound, -, hmem⟩ :=
    h.nodesUnder (disclosureNodeRedactionVersion E.T) (text "redaction.line") uid
  refine ⟨_, by rw [redactionKeysALine, hfound]; rfl, ?_⟩
  rw [any_eq_true]
  constructor
  · rintro ⟨node, hnode, hlab⟩
    obtain ⟨hnode, -, htold⟩ := (hmem node).mp (mem_filter.mpr ⟨hnode, hlab⟩)
    exact ⟨node, hnode, htold⟩
  · rintro ⟨node, hnode, htold⟩
    have hin := (hmem node).mpr ⟨hnode, mem_disclosureKeys_version E.T, htold⟩
    exact ⟨node, mem_filter.mp hin⟩

/-- The end of a reclassification at a record is read as its uid. -/
theorem supersedesEnd_eq {id : Nat} {uid : Bytes} (h : RecordAt E g id uid) (recordUID : Bytes) :
    supersedesEnd E g recordUID id = .ok uid := by
  obtain ⟨node, hnode, rfl, props, htold, hval⟩ := h
  have hlab : disclosureNodeRecord E.T ∈ node.labels := by
    rw [htold.1]
    exact mem_singleton.mpr rfl
  rw [supersedesEnd, E.S.getNode_of_mem g node hnode]
  show (if _ then _ else _) = _
  rw [if_pos hlab, disclosureDecode_of_told htold]
  show Except.ok ((KeyMap.get? _ props.entries).getD []) = _
  rw [hval]
  rfl

/-- The records at the other ends of a record's `SUPERSEDES` edges. -/
theorem Schema.supersedesEnds (h : Schema E g) (uid : Bytes) (dir : Direction) (near far : Edge → Nat)
    (hof : ∀ id edge, dir.Of id edge ↔ near edge = id)
    (hfar : ∀ edge new old, Supersedes E g edge new old → ∃ other, RecordAt E g (far edge) other) :
    ∃ found, supersedesEnds E g uid dir far = .ok found ∧ found.Nodup ∧ ∀ other, other ∈ found ↔
      ∃ edge ∈ E.S.edges g, disclosureEdgeSupersedes E.T ∈ edge.labels ∧ RecordAt E g (near edge) uid ∧
        RecordAt E g (far edge) other := by
  rw [Builtin.supersedesEnds]
  -- the record is in the ledger once, or not at all
  obtain ⟨node, hnode, hrec, props, hfind⟩ | ⟨hnone, hfind⟩ := h.find_record uid
  · obtain ⟨edges, hread, hof'⟩ := E.S.edgesOf_ok g node.id dir [disclosureEdgeSupersedes E.T]
    rw [hfind]
    have hedges : ∀ edge ∈ edges, ∃ other, supersedesEnd E g uid (far edge) = .ok other ∧
        disclosureEdgeSupersedes E.T ∈ edge.labels ∧ RecordAt E g (near edge) uid ∧
          RecordAt E g (far edge) other := by
      intro edge hedge
      obtain ⟨hmem, hnear, htypes⟩ := (hof' edge).mp hedge
      have hlab : disclosureEdgeSupersedes E.T ∈ edge.labels := by
        obtain hnil | ⟨lab, hlab, htype⟩ := htypes
        · cases hnil
        · rwa [mem_singleton.mp htype] at hlab
      obtain ⟨new, old, hsup, -⟩ := h.supersedes edge hmem hlab
      obtain ⟨other, hoth⟩ := hfar edge new old hsup
      exact ⟨other, supersedesEnd_eq hoth uid, hlab,
        ⟨node, hnode, ((hof _ _).mp hnear).symm, hrec⟩, hoth⟩
    obtain ⟨uids, huids⟩ := Result.exists_mapM fun edge hedge =>
      (hedges edge hedge).imp fun _ h => h.1
    -- the order the uids are sorted in does not matter
    refine ⟨uids.dedup.insertionSort (· ≤ ·), ?_, ?_, ?_⟩
    · show (Except.bind (Except.mapError _ _) _) = _
      rw [hread]
      show Except.map _ (List.mapM _ _) = _
      rw [huids]
      rfl
    · exact (perm_insertionSort _ _).nodup_iff.mpr (nodup_dedup _)
    · intro other
      rw [(perm_insertionSort _ _).mem_iff, mem_dedup, Result.mem_mapM huids]
      constructor
      · rintro ⟨edge, hedge, hend⟩
        obtain ⟨other', hend', hsup⟩ := hedges edge hedge
        obtain rfl := Except.ok.inj (hend.symm.trans hend')
        exact ⟨edge, ((hof' edge).mp hedge).1, hsup⟩
      · rintro ⟨edge, hedge, hlab, ⟨node', hnode', hnear, hrec'⟩, hoth⟩
        obtain rfl := h.unique node' hnode' node hnode uid hrec' hrec
        refine ⟨edge, (hof' edge).mpr ⟨hedge, ?_⟩, supersedesEnd_eq hoth uid⟩
        exact ⟨(hof _ _).mpr hnear.symm, .inr ⟨_, hlab, mem_singleton.mpr rfl⟩⟩
  · rw [hfind]
    refine ⟨[], rfl, .nil, fun other => ⟨nofun, ?_⟩⟩
    rintro ⟨edge, -, -, ⟨node, hnode, -, hrec⟩, -⟩
    exact absurd hrec (hnone node hnode)

/-- The records a record reclassifies. -/
theorem Schema.reclassifies (h : Schema E g) (uid : Bytes) :
    ∃ found, redactionReclassifies E g uid = .ok found ∧ found.Nodup ∧
      ∀ old, old ∈ found ↔ (lineage E g).above uid old :=
  h.supersedesEnds uid .outbound (·.src) (·.dst) (fun _ _ => Iff.rfl) fun _ _ old h => ⟨old, h.2.2⟩

/-- The records that reclassify a record. -/
theorem Schema.successors (h : Schema E g) {uid : Bytes} {found : List Bytes}
    (hfnd : reclassSuccessors E g uid = .ok found) (new : Bytes) :
    new ∈ found ↔ (lineage E g).above new uid := by
  obtain ⟨found', hfnd', -, hmem⟩ := h.supersedesEnds uid .inbound (·.dst) (·.src)
    (fun _ _ => Iff.rfl) fun _ new _ h => ⟨new, h.2.1⟩
  obtain rfl := Except.ok.inj (hfnd.symm.trans hfnd')
  rw [hmem]
  exact exists_congr fun edge => and_congr_right fun _ => and_congr_right fun _ => and_comm

/-- The line of a record, and how far it is at most. -/
theorem Schema.redactionLine_eq_ok_iff (h : Schema E g) (hacy : (lineage E g).Acyclic)
    {recordUID line : Bytes} :
    redactionLine E g recordUID = .ok line ↔
      ∃ way, (lineage E g).Line (recordUID.map Hex.lower) way line ∧
        way.length < maxRedactionLine := by
  obtain ⟨found, hfnd, hline⟩ := Lineage.State.walk_eq_ok h.keysALine h.reclassifies hacy
    maxRedactionLine [] (recordUID.map Hex.lower) nofun
  rw [← hline line, redactionLine, hfnd]
  cases found with
  | none => exact ⟨nofun, nofun⟩
  | some l =>
    show Except.ok l = Except.ok line ↔ _
    rw [Except.ok.injEq, Option.some.injEq]

/-! ### The search -/

/-- The ledger has a `SUPERSEDES` edge from one record to another, where it can be read. -/
def Recorded (E : LedgerEnv) (g : E.S.State) (new old : Bytes) : Prop :=
  ∃ record, disclosureFind E g (disclosureNodeRecord E.T) (text "record.uid") new =
      .ok (some record) ∧
    ∃ edges, E.S.edgesOf g record.id .outbound [disclosureEdgeSupersedes E.T] = .ok edges ∧
      ∃ edge ∈ edges, supersedesEnd E g new edge.dst = .ok old

/-- What a record reclassifies is what is recorded. -/
theorem mem_redactionReclassifies {uid : Bytes} {found : List Bytes}
    (h : redactionReclassifies E g uid = .ok found) (old : Bytes) :
    old ∈ found ↔ Recorded E g uid old := by
  obtain ⟨record, hrec, hrest⟩ := Result.ok_of_bind h
  rw [Recorded, hrec]
  cases record with
  | none =>
    cases hrest
    simp
  | some record =>
    obtain ⟨edges, hread, -⟩ := E.S.edgesOf_ok g record.id .outbound [disclosureEdgeSupersedes E.T]
    dsimp only at hrest
    rw [hread] at hrest
    obtain ⟨uids, huids, rfl⟩ := Result.ok_of_map hrest
    rw [(perm_insertionSort _ _).mem_iff, mem_dedup, Result.mem_mapM huids]
    simp [hread]

theorem Schema.recorded_iff (h : Schema E g) {new old : Bytes} :
    Recorded E g new old ↔ (lineage E g).above new old := by
  obtain ⟨found, hfnd, -, hover⟩ := h.reclassifies new
  rw [← hover, mem_redactionReclassifies hfnd]

/-- On any ledger a path is found exactly where there is one, and it is a shortest one if it does not
pass the empty uid. -/
theorem reclassSupersessionPath_spec {start tgt : Bytes} {res : Option (List Bytes)}
    (hne : start ≠ tgt) (hpath : reclassSupersessionPath E g start tgt = .ok res) :
    (res.isSome ↔ Relation.ReflTransGen (Recorded E g) start tgt) ∧
      ([] = tgt ∨ ¬ Relation.ReflTransGen (Recorded E g) start [] →
        ∀ path, res = some path → Breadth.Shortest (Recorded E g) start tgt path) := by
  let uidAt (edge : Edge) : Option Bytes := (supersedesEnd E g [] edge.dst).toOption
  -- every uid but the first is the other end of an edge
  have hvals : ∀ new old, Recorded E g new old → old ∈ (E.S.edges g).filterMap uidAt := by
    rintro new old ⟨record, -, edges, hread, edge, hedge, hend⟩
    obtain ⟨edges', hread', hof⟩ :=
      E.S.edgesOf_ok g record.id .outbound [disclosureEdgeSupersedes E.T]
    obtain rfl := Except.ok.inj (hread.symm.trans hread')
    have huid : uidAt edge = some old := by
      simp only [uidAt, supersedesEnd] at hend ⊢
      split at hend
      · cases hend
      · split_ifs at hend with hlab
        rw [if_pos hlab, hend]
        rfl
    exact mem_filterMap.mpr ⟨edge, ((hof edge).mp hedge).1, huid⟩
  refine Breadth.search_spec hne (fun _ _ => mem_redactionReclassifies) hvals ?_ hpath
  exact Nat.lt_succ_of_le (length_filterMap_le uidAt (E.S.edges g))

end Mutant.Builtin
