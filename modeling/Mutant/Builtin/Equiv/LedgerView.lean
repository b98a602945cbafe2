import Mutant.Builtin.LedgerView
import Mutant.Ledger.ListGraph
import Mutant.Lib.Settles
import Mutant.Security.Equiv.RecordKeys

/-!
# What a view withholds

The reader of a view keeps a table of what it has decided, and reads edges, neighbours and pages on
its own.  Whatever was read before, each of its reads answers as the plain read does on the part of
the ledger that the view shows (`settles_read`): a node that is not decided about is the one way out.
The part is any reader whose answers are the snapshot's answers less what the view does not show
(`GraphReader.Part`).  Two ledgers with one such part then have the same answers to every sequence of
reads (`ledgerView_reads`), as a ledger with two withheld nodes and one without them show.
-/

namespace Mutant.Builtin

open List Settles Mutant.Ledger
open Mutant.Security (Bytes text)

variable {NQ EQ : Type} {node : Node} {edge : Edge}

/-! ### What a view shows -/

/-- The error of a node that is not decided about. -/
def LedgerViewError.Undecided : LedgerViewError → Prop
  | .classification .. | .undecodable _ => True
  | _ => False

namespace LedgerViewReader

variable (r : LedgerViewReader NQ EQ)

/-- The view shows the node; one that is not decided about it does not. -/
def shows (node : Node) : Bool := (r.decide node).toOption.getD false

def shownNode (id : Nat) : Bool := ((r.snapshot.getNode id).toOption.map r.shows).getD false

/-- An edge is shown if its type is and both its ends are. -/
def shownEdge (edge : Edge) : Bool :=
  (ledgerScriptEdgeLabels r.T edge.labels || ledgerViewSchemaEdge r.T edge.labels) &&
    (r.shownNode edge.src && r.shownNode edge.dst)

def shownEdgeID (id : Nat) : Bool := ((r.snapshot.getEdge id).toOption.map r.shownEdge).getD false

/-- `part` reads the part of the snapshot that the view shows. -/
abbrev ShownPart (part : GraphReader NQ EQ) : Prop :=
  r.snapshot.Part part r.shownNode r.shownEdge r.shownEdgeID

variable {r}

theorem shownNode_of_getNode {id : Nat} (h : r.snapshot.getNode id = .ok node) :
    r.shownNode id = r.shows node := by
  rw [shownNode, h]
  rfl

/-- The ends of a shown edge are shown. -/
theorem shownNode_of_shownEdge (h : r.shownEdge edge = true) :
    r.shownNode edge.src = true ∧ r.shownNode edge.dst = true := by
  rw [shownEdge, Bool.and_eq_true, Bool.and_eq_true] at h
  exact h.2

/-! ### Decisions -/

variable (r) in
/-- The table holds what the view shows. -/
def Keeps (shown : Shown) : Prop := ∀ id b, shown.lookup id = some b → b = r.shownNode id

variable (r) in
/-- The outcome of a computation whatever was decided before it, where every node is decided about. -/
abbrev Gives {α : Type} : ViewM α → Except LedgerViewError α → Prop :=
  Settles r.Keeps LedgerViewError.Undecided

theorem keeps_cons {shown : Shown} (h : r.Keeps shown) (id : Nat) :
    r.Keeps ((id, r.shownNode id) :: shown) := by
  intro other b hb
  rw [lookup_cons] at hb
  split at hb
  · next heq =>
    rw [beq_iff_eq.mp heq, ← Option.some.inj hb]
  · exact h other b hb

/-- The only way for `decide` to fail is to leave the node undecided. -/
theorem undecided_of_decide {error : LedgerViewError}
    (h : r.decide node = .error error) : error.Undecided := by
  rw [decide] at h
  split_ifs at h
  · split at h
    · cases h
      trivial
    · cases h
  · rw [decideSchema] at h
    repeat' split at h
    all_goals first | cases h; trivial | cases h

/-- What the table says of a node, or what is decided. -/
theorem settles_showsNode {id : Nat} (hid : node.id = id) (h : r.snapshot.getNode id = .ok node) :
    r.Gives (r.showsNode node) (.ok (r.shownNode id)) := by
  subst hid
  apply get_bind
  intro shown hshown
  -- decided before, or decided now and remembered
  cases hlook : shown.lookup node.id with
  | some b =>
    rw [← hshown node.id b hlook]
    exact pure b shown hshown
  | none =>
    rw [shownNode_of_getNode h, shows]
    cases hdecide : r.decide node with
    | error error => exact ⟨.inl ⟨error, undecided_of_decide hdecide, rfl⟩, hshown⟩
    | ok b =>
      refine ⟨.inr rfl, ?_⟩
      have hb : b = r.shownNode node.id := by
        rw [shownNode_of_getNode h, shows, hdecide]
        rfl
      rw [hb]
      exact keeps_cons hshown node.id

section

variable (hlaw : r.snapshot.Lawful)

include hlaw

/-- What a view says of an id is whether it shows the node, if there is one. -/
theorem settles_showsNodeID (id : Nat) : r.Gives (r.showsNodeID id) (.ok (r.shownNode id)) := by
  apply get_bind
  intro shown hshown
  cases hlook : shown.lookup id with
  | some b =>
    rw [← hshown id b hlook]
    exact pure b shown hshown
  | none =>
    cases hget : r.snapshot.getNode id with
    | error error =>
      -- the id of no node is remembered as one that is not shown
      obtain rfl := hlaw.getNode_error id error hget
      have hnone : r.shownNode id = false := by
        rw [shownNode, hget]
        rfl
      refine ⟨.inr (by rw [hnone]; rfl), ?_⟩
      rw [← hnone]
      exact keeps_cons hshown id
    | ok node => exact settles_showsNode (hlaw.getNode_id id node hget) hget shown hshown

/-- An edge is shown when its labels are a script's or the schema's, and both its ends are shown. -/
theorem settles_showsEdge (edge : Edge) : r.Gives (r.showsEdge edge) (.ok (r.shownEdge edge)) := by
  rw [showsEdge, shownEdge]
  cases hlabels :
      ledgerScriptEdgeLabels r.T edge.labels || ledgerViewSchemaEdge r.T edge.labels with
  | false =>
    rw [if_pos (by rw [← Bool.not_or, hlabels]; rfl)]
    exact pure false
  | true =>
    rw [if_neg (by rw [← Bool.not_or, hlabels]; decide)]
    apply bind (settles_showsNodeID hlaw edge.src)
    -- the far end is decided only when the near one is shown
    cases r.shownNode edge.src with
    | false => exact pure false
    | true => exact settles_showsNodeID hlaw edge.dst

theorem settles_showsEdgeID (id : Nat) : r.Gives (r.showsEdgeID id) (.ok (r.shownEdgeID id)) := by
  rw [showsEdgeID, shownEdgeID]
  cases hget : r.snapshot.getEdge id with
  | error error =>
    obtain rfl := hlaw.getEdge_error id error hget
    exact pure false
  | ok edge => exact settles_showsEdge hlaw edge

end

/-! ### Pages -/

section

variable {shows : Nat → ViewM Bool} {p : Nat → Bool}
  (hshw : ∀ id, r.Gives (shows id) (.ok (p id)))

include hshw

/-- A page of ids is one of the shown ids. -/
theorem settles_ledgerViewPage (ids : List Nat) (off lim : Int) (out : List Nat)
    (hout : 0 < lim → (out.length : Int) < lim) :
    r.Gives (ledgerViewPage shows ids off lim out)
      (.ok (out ++ page off (lim - out.length) (ids.filter p))) := by
  induction ids generalizing off out with
  | nil =>
    have hnil : page off (lim - out.length) [] = [] := by
      rw [page]
      split_ifs <;> simp
    rw [filter_nil, hnil, append_nil]
    exact pure out
  | cons id ids ih =>
    apply bind (hshw id)
    cases hp : p id with
    | false =>
      rw [filter_cons_of_neg (by rw [hp]; decide)]
      exact ih off out hout
    | true =>
      rw [filter_cons_of_pos hp]
      show Settles _ _ (if 0 < off then _ else _) _
      -- skipped, the last of the page, or one of several
      split_ifs with hoff hlast
      · rw [page_cons_of_pos hoff]
        exact ih (off - 1) out hout
      · have hone : lim - out.length = 1 := by
          have := hlast.2
          rw [length_append, length_singleton] at this
          omega
        rw [hone, page_one (by omega)]
        exact pure _
      · rw [length_append, length_singleton] at hlast
        have hnext := ih off (out ++ [id]) (by
          rw [length_append, length_singleton]
          omega)
        rw [page_cons_of_nonpos (by omega) (by omega)]
        rw [length_append, length_singleton, append_assoc] at hnext
        have hcast : lim - ((out.length + 1 : Nat) : Int) = lim - out.length - 1 := by omega
        rwa [hcast] at hnext

/-- A page of what the snapshot answers, or the error it answers with. -/
theorem settles_pageOf (ids : Except StoreError (List Nat)) (off lim : Int) :
    r.Gives (do ledgerViewPage shows (← readStore ids) off lim [])
      (((ids.map (·.filter p)).map (page off lim)).mapError .store) := by
  cases ids with
  | error error => exact bind_error (ofExcept _)
  | ok ids =>
    apply bind (ofExcept (.ok ids))
    have hpage := settles_ledgerViewPage hshw ids off lim [] (fun h => h)
    rw [length_nil, Int.natCast_zero, Int.sub_zero, nil_append] at hpage
    exact hpage

/-- All of what the snapshot answers. -/
theorem settles_keep (ids : Except StoreError (List Nat)) :
    r.Gives (do ledgerViewPage shows (← readStore ids) 0 0 [])
      ((ids.map (·.filter p)).mapError .store) := by
  have hpage := settles_pageOf hshw ids 0 0
  cases ids with
  | error error => exact hpage
  | ok ids => exact hpage

end

/-! ### Each read -/

section

variable {part : GraphReader NQ EQ} (hlaw : r.snapshot.Lawful) (hpart : r.ShownPart part)

include hlaw

theorem settles_keepNodes (ids : Except StoreError (List Nat)) :
    r.Gives (r.keepNodes ids) ((ids.map (·.filter r.shownNode)).mapError .store) :=
  settles_keep (settles_showsNodeID hlaw) ids

theorem settles_keepEdges (ids : Except StoreError (List Nat)) :
    r.Gives (r.keepEdges ids) ((ids.map (·.filter r.shownEdgeID)).mapError .store) :=
  settles_keep (settles_showsEdgeID hlaw) ids

/-- The edges that are kept are the edges that are shown. -/
theorem settles_keepShown (edges : List Edge) :
    r.Gives (r.keepShown edges) (.ok (edges.filter r.shownEdge)) := by
  induction edges with
  | nil => exact pure []
  | cons edge edges ih =>
    rw [filter_cons]
    apply bind (settles_showsEdge hlaw edge)
    split_ifs
    · exact bind ih (pure _)
    · exact ih

include hpart

/-- A node is read as in the part, and one that is not shown as one that does not exist. -/
theorem settles_getNode (id : Nat) :
    r.Gives (r.getNode id) ((part.getNode id).mapError .store) := by
  rw [getNode, hpart.getNode]
  cases hget : r.snapshot.getNode id with
  | error error =>
    obtain rfl := hlaw.getNode_error id error hget
    rw [ite_self]
    exact bind_error (ofExcept _)
  | ok node =>
    apply bind (ofExcept (.ok node))
    apply bind (settles_showsNode (hlaw.getNode_id id node hget) hget)
    split_ifs
    · exact pure node
    · exact throw _

/-- An edge is read as in the part. -/
theorem settles_getEdge (id : Nat) :
    r.Gives (r.getEdge id) ((part.getEdge id).mapError .store) := by
  rw [getEdge, hpart.getEdge, shownEdgeID]
  cases hget : r.snapshot.getEdge id with
  | error error =>
    obtain rfl := hlaw.getEdge_error id error hget
    rw [ite_self]
    exact bind_error (ofExcept _)
  | ok edge =>
    apply bind (ofExcept (.ok edge))
    apply bind (settles_showsEdge hlaw edge)
    show Settles _ _ _ (Except.mapError _ (if r.shownEdge edge then _ else _))
    split_ifs
    · exact pure edge
    · exact throw _

/-- The edges of the part at a node are shown, and so are both their ends. -/
theorem shownEdge_of_edgesOf {id : Nat} {dir : Direction} {types : List Nat} {edges : List Edge}
    (h : part.edgesOf id dir types = .ok edges) :
    ∀ edge ∈ edges, r.shownEdge edge = true ∧ (edge.src = id ∨ edge.dst = id) := by
  obtain ⟨all, hall, hend⟩ := hlaw.edgesOf_ok id dir types
  rw [hpart.edgesOf, hall] at h
  cases h
  intro edge hedge
  obtain ⟨hmem, hshown⟩ := mem_filter.mp hedge
  exact ⟨hshown, hend edge hmem⟩

/-- The edges of a node are those of the part. -/
theorem settles_edgesOf (id : Nat) (dir : Direction) (types : List Nat) :
    r.Gives (r.edgesOf id dir types) ((part.edgesOf id dir types).mapError .store) := by
  obtain ⟨edges, hedges, -⟩ := hpart.lawful.edgesOf_ok id dir types
  apply bind (settles_showsNodeID hlaw id)
  split_ifs with hid
  · obtain ⟨all, hall, -⟩ := hlaw.edgesOf_ok id dir types
    rw [hpart.edgesOf, hall]
    exact bind (ofExcept (.ok all)) (settles_keepShown hlaw all)
  · -- a node that is not shown has no edge that is
    have hnone : edges = [] := by
      rw [eq_nil_iff_forall_not_mem]
      intro edge hedge
      obtain ⟨hshown, hend⟩ := shownEdge_of_edgesOf hlaw hpart hedges edge hedge
      obtain ⟨hsrc, hdst⟩ := shownNode_of_shownEdge hshown
      rcases hend with rfl | rfl
      · exact hid hsrc
      · exact hid hdst
    rw [hedges, hnone]
    exact pure []

omit hlaw in
/-- The loop over the shown edges reads the other ends from the snapshot, the plain read from the
part: they are the same nodes, as the ends of a shown edge are shown. -/
theorem settles_eachFar (id : Nat) (seen : List Nat) (edges : List Edge)
    (hedges : ∀ edge ∈ edges, r.shownNode (edge.far id) = true) :
    r.Gives (r.eachFar id seen edges) (((onePerFar id seen edges).mapM fun edge =>
        (part.getNode (edge.far id)).map fun node => (node, edge)).mapError .store) := by
  induction edges generalizing seen with
  | nil => exact pure []
  | cons edge edges ih =>
    rw [forall_mem_cons] at hedges
    rw [eachFar, onePerFar]
    -- one neighbour for each far end, the first edge to it
    split_ifs with hseen
    · exact ih seen hedges.2
    · rw [mapM_cons, hpart.getNode, if_pos hedges.1]
      cases hget : r.snapshot.getNode (edge.far id) with
      | error error => exact bind_error (ofExcept _)
      | ok node =>
        apply bind (ofExcept (.ok node))
        have hrest := ih (edge.far id :: seen) hedges.2
        revert hrest
        generalize (onePerFar id (edge.far id :: seen) edges).mapM (fun edge =>
          (part.getNode (edge.far id)).map fun node => (node, edge)) = rest
        intro hrest
        cases rest with
        | error error => exact bind_error hrest
        | ok rest => exact bind hrest (pure _)

/-- The neighbours of a node are those of the part. -/
theorem settles_neighbours (id : Nat) (dir : Direction) (types : List Nat) :
    r.Gives (r.neighbours id dir types) ((part.neighbours id dir types).mapError .store) := by
  obtain ⟨edges, hedges, -⟩ := hpart.lawful.edgesOf_ok id dir types
  have hkept := settles_edgesOf hlaw hpart id dir types
  rw [hedges] at hkept
  rw [hpart.lawful.neighbours_eq, hedges]
  apply bind hkept
  apply settles_eachFar hpart
  intro edge hedge
  obtain ⟨hsrc, hdst⟩ :=
    shownNode_of_shownEdge (shownEdge_of_edgesOf hlaw hpart hedges edge hedge).1
  rw [Edge.far]
  split_ifs
  · exact hsrc
  · exact hdst

/-- The page of a query is cut after what is not shown has been left out. -/
theorem settles_queryNodeIDs (q : NQ) (offset limit : Int) :
    r.Gives (r.queryNodeIDs q offset limit)
      ((part.queryNodeIDs q offset limit).mapError .store) := by
  rw [hpart.lawful.queryNodeIDs_eq, hpart.queryNodeIDs]
  exact settles_pageOf (settles_showsNodeID hlaw) _ offset limit

theorem settles_queryEdgeIDs (q : EQ) (offset limit : Int) :
    r.Gives (r.queryEdgeIDs q offset limit)
      ((part.queryEdgeIDs q offset limit).mapError .store) := by
  rw [hpart.lawful.queryEdgeIDs_eq, hpart.queryEdgeIDs]
  exact settles_pageOf (settles_showsEdgeID hlaw) _ offset limit

omit hlaw hpart in
/-- A read of which the answer is what `f` makes of an outcome. -/
theorem Gives.answer {α : Type} {m : ViewM α} {outcome : Except StoreError α}
    (h : r.Gives m (outcome.mapError .store)) (f : α → LedgerAnswer) :
    r.Gives (do return f (← m)) ((outcome.map f).mapError .store) := by
  have hmap := h.map f
  cases outcome with
  | error error => exact hmap
  | ok a => exact hmap

/-- A read under the view answers as one of what the view shows. -/
theorem settles_read (read : LedgerRead NQ EQ) : r.Gives (r.read read) (read.plain part) := by
  cases read with
  | getNode id => exact Gives.answer (settles_getNode hlaw hpart id) _
  | getEdge id => exact Gives.answer (settles_getEdge hlaw hpart id) _
  | neighbours id dir types => exact Gives.answer (settles_neighbours hlaw hpart id dir types) _
  | edgesOf id dir types => exact Gives.answer (settles_edgesOf hlaw hpart id dir types) _
  -- an index is read whole, and what is not shown is left out
  | nodesByType label =>
    apply Gives.answer
    rw [hpart.nodesByType]
    exact settles_keepNodes hlaw _
  | edgesByType label =>
    apply Gives.answer
    rw [hpart.edgesByType]
    exact settles_keepEdges hlaw _
  | nodesByProperty key value =>
    apply Gives.answer
    rw [hpart.nodesByProperty]
    exact settles_keepNodes hlaw _
  | edgesByProperty key value =>
    apply Gives.answer
    rw [hpart.edgesByProperty]
    exact settles_keepEdges hlaw _
  -- a page is cut from what is shown
  | queryNodeIDs q offset limit =>
    exact Gives.answer (settles_queryNodeIDs hlaw hpart q offset limit) _
  | queryEdgeIDs q offset limit =>
    exact Gives.answer (settles_queryEdgeIDs hlaw hpart q offset limit) _

end

end LedgerViewReader

/-! ### Every sequence of reads -/

/-- The answer is that a node could not be decided about. -/
def Unread : Except LedgerViewError LedgerAnswer → Prop
  | .error error => error.Undecided
  | .ok _ => False

instance : DecidablePred LedgerViewError.Undecided
  | .classification .. | .undecodable _ => isTrue trivial
  | .store _ | .count => isFalse id

instance : DecidablePred Unread
  | .error error => inferInstanceAs (Decidable error.Undecided)
  | .ok _ => isFalse id

namespace LedgerViewReader

variable {r : LedgerViewReader NQ EQ} {part : GraphReader NQ EQ} (hlaw : r.snapshot.Lawful)
  (hpart : r.ShownPart part)

include hlaw hpart

/-- Over a whole sequence of reads, each answer that was decided is the part's. -/
theorem answersFrom_plain {shown : Shown} (hshown : r.Keeps shown)
    (reads : List (LedgerRead NQ EQ)) :
    Forall₂ (fun read ans => ¬ Unread ans → ans = read.plain part) reads
      (r.answersFrom shown reads) := by
  -- the table one read leaves still holds only decisions the view makes
  induction reads generalizing shown with
  | nil => exact .nil
  | cons read reads ih =>
    obtain ⟨hans, hnext⟩ := settles_read hlaw hpart read shown hshown
    refine .cons (fun hread => hans.resolve_left ?_) (ih hnext)
    rintro ⟨error, hundecided, herr⟩
    rw [herr] at hread
    exact hread hundecided

theorem answers_plain (reads : List (LedgerRead NQ EQ)) :
    Forall₂ (fun read ans => ¬ Unread ans → ans = read.plain part) reads (r.answers reads) :=
  answersFrom_plain hlaw hpart (fun _ _ h => absurd h (by simp)) reads

/-- Where every node is decided about, the answers are those of what the view shows. -/
theorem answers_eq {reads : List (LedgerRead NQ EQ)} (h : ∀ ans ∈ r.answers reads, ¬ Unread ans) :
    r.answers reads = reads.map (·.plain part) := by
  have hall := answers_plain hlaw hpart reads
  revert h hall
  generalize r.answers reads = answers
  intro h hall
  induction hall with
  | nil => rfl
  | cons hans _ ih =>
    rw [forall_mem_cons] at h
    rw [map_cons, hans h.1, ih h.2]

end LedgerViewReader

def classTag : Bytes := replicate classTagLength 0x61

/-- The properties of the event that puts node 2 in the class. -/
def classEvent : Props :=
  (chainAppend Security.copying (classifyChain ⟨1000, 1000, 1, by decide⟩)
    (classifyChainKey (text "c") 2) none 3
    ((((⟨[], Props.increasing_nil⟩ : Props).set (text "classify.case_uid") (text "c")).set
      (text "classify.target") (text "2")).set (text "classify.tags") classTag |>.set
      (text "classify.classes") (text "[\"secret\"]"))).props

/-- A reader of a ledger of case `c` that grants the class.  The blob `e` holds the properties of the
event, any other blob a case's uid. -/
def caseReader (g : Graph) : LedgerViewReader (Node → Bool) (Edge → Bool) where
  P := Security.copying
  D := ⟨fun blob => if blob = text "e" then some classEvent
    else some ⟨[(text "case.uid", blob)], pairwise_singleton _ _⟩⟩
  T := ⟨1000, 1000, 1, by decide⟩
  snapshot := g.reader
  view := ⟨[classTag], text "c", text "one", text "public"⟩

/-- What the reader shows of a ledger. -/
def caseShown (g : Graph) : Graph :=
  g.keep (caseReader g).shownNode (caseReader g).shownEdge (caseReader g).shownEdgeID

theorem shownPart_caseShown (g : Graph) : (caseReader g).ShownPart (caseShown g).reader := by
  apply Graph.part_keep
  intro edge hedge
  rw [LedgerViewReader.shownEdgeID, caseReader, Graph.reader]
  dsimp only
  rw [Graph.getEdge_of_mem hedge]
  rfl

/-- The case, a node of the class with two edges to it, and the event that classifies the node. -/
def caseLedger : Graph where
  nodes := [⟨1, [1], text "c"⟩, ⟨2, [1000], []⟩, ⟨3, [5114], text "e"⟩]
  edges := [⟨2, 1, 2, [1000], []⟩, ⟨3, 2, 1, [1001], []⟩]
  nodeIndex := [⟨text "classify.chain", text "c|2", 3⟩]
  edgeIndex := []
  nodup_nodes := by decide
  nodup_edges := by decide

/-- The same with a node that was never classified before all others, its edge to the case, and an
edge between the case and the node of the class that has a type no view shows. -/
def fullLedger : Graph where
  nodes := ⟨4, [1000], []⟩ :: caseLedger.nodes
  edges := [⟨1, 1, 2, [7], []⟩, ⟨4, 4, 1, [1000], []⟩] ++ caseLedger.edges
  nodeIndex := caseLedger.nodeIndex
  edgeIndex := []
  nodup_nodes := by decide
  nodup_edges := by decide

end Mutant.Builtin
