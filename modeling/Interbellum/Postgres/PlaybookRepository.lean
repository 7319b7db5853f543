import Mathlib.Data.List.Sort
import Interbellum.Postgres.Statement

/-!
# The playbook repository

The statements and transactions on playbooks, versions, nodes and edges. Ids the database
or `uuid.New` generates and the time `now()` returns are arguments, in the order in which
they are drawn. Reads sort as their queries say; texts compare by code points.
-/

namespace Interbellum

/-- The range of an `INTEGER` column. -/
def int4 (n : Int) : Bool := -2147483648 ≤ n && n ≤ 2147483647

def storableOption (t : Option String) : Bool := t.all storableText

def storableJson (j : Option Json) : Bool := j.all Json.storable

namespace PlaybookRepository

/-! ## Statements -/

def insertPlaybook (id : UUID) (now : Time) (input : NewPlaybook) : Db Playbook :=
  sql (fun s =>
    let row : Playbook := ⟨id, input.name, input.description, input.alertType, now, now⟩
    .guarded
      [(!(storableText input.name && storableText input.description &&
          storableText input.alertType), .other),
       (s.playbooks.any (fun p => p.id = id), .pg .uniqueViolation "playbooks_pkey")]
      ⟨.ok row, [(.playbook id, .update)], [.insertPlaybook row]⟩) fun err => err

def insertVersion (id : UUID) (now : Time) (playbookID : UUID) (number : Nat) : Db Version :=
  sql (fun s =>
    let row : Version := ⟨id, playbookID, number, .draft, none, now, none⟩
    .guarded
      [(!int4 number, .other),
       (s.versions.any (fun v => v.id = id), .pg .uniqueViolation "playbook_versions_pkey"),
       (number ∈ s.versionNumbers playbookID,
        .pg .uniqueViolation "playbook_versions_playbook_id_version_key"),
       (!s.playbooks.any (fun p => p.id = playbookID),
        .pg .foreignKeyViolation "playbook_versions_playbook_id_fkey")]
      ⟨.ok row,
        [(.version id, .update), (.versionNumber playbookID number, .update),
         (.playbook playbookID, .keyShare)],
        [.insertVersion row]⟩) fun err => err

def lockVersionShared (versionID : UUID) : Db Version :=
  sql (fun s => .lockRow (.version versionID) .share (s.versionRows versionID).head?)
    (notFound "playbook version")

def lockVersion (versionID : UUID) : Db Version :=
  sql (fun s => .lockRow (.version versionID) .update (s.versionRows versionID).head?)
    (notFound "playbook version")

def lockPlaybook (playbookID : UUID) : Db Playbook :=
  sql (fun s => .lockRow (.playbook playbookID) .update
    (s.playbooks.filter (fun p => p.id = playbookID)).head?) (notFound "playbook")

/-- `COALESCE(MAX(version), 0) + 1` -/
def nextVersion (playbookID : UUID) : Db Nat :=
  sql (fun s =>
    let next := (s.versionNumbers playbookID).foldl max 0 + 1
    .guarded [(!int4 next, .other)] (.read next)) fun err => err

/-- An update of the root pointer re-checks both foreign keys of the row; an update of no
row is no error. -/
def setRoot (versionID : UUID) (root : Option UUID) : Db Unit :=
  sql (fun s =>
    match (s.versionRows versionID).head? with
    | none => .read ()
    | some v =>
      .guarded
        [(root.any fun id => !(s.nodesOf versionID).any (fun n => n.id = id),
          .pg .foreignKeyViolation "fk_playbook_versions_root_node")]
        ⟨.ok (),
          (.version versionID, .noKeyUpdate) :: (.playbook v.playbookID, .keyShare) ::
            root.toList.map fun id => (.node id, .keyShare),
          [.setRoot versionID root]⟩) fun err => err

def setPublished (versionID : UUID) (now : Time) : Db Unit :=
  sql (fun s =>
    match (s.versionRows versionID).head? with
    | none => .read ()
    | some v =>
      ⟨.ok (), [(.version versionID, .noKeyUpdate), (.playbook v.playbookID, .keyShare)],
        [.setPublished versionID now]⟩) fun err => err

def deleteEdges (versionID : UUID) : Db Unit :=
  sql (fun s =>
    let edges := s.edgesOf versionID
    .guarded
      [(edges.any fun e => s.steps.any fun r =>
          r.playbookVersionID = versionID && r.selectedEdgeID = e.id,
        .pg .foreignKeyViolation "fk_investigation_steps_edge_same_version")]
      ⟨.ok (),
        edges.flatMap fun e =>
          [(.edge e.id, .update), (.edgeLabel e.fromNodeID e.label, .update)],
        [.deleteEdges versionID edges]⟩) fun err => err

def deleteNodes (versionID : UUID) : Db Unit :=
  sql (fun s =>
    let nodes := s.nodesOf versionID
    .guarded
      [(nodes.any fun n => (s.versionRows versionID).any fun v => v.rootNodeID = some n.id,
        .pg .foreignKeyViolation "fk_playbook_versions_root_node"),
       (nodes.any fun n => (s.edgesOf versionID).any fun e => e.fromNodeID = n.id,
        .pg .foreignKeyViolation "fk_playbook_edges_from_node_same_version"),
       (nodes.any fun n => (s.edgesOf versionID).any fun e => e.toNodeID = n.id,
        .pg .foreignKeyViolation "fk_playbook_edges_to_node_same_version"),
       (nodes.any fun n => s.investigations.any fun i =>
          i.playbookVersionID = versionID && i.currentNodeID = n.id,
        .pg .foreignKeyViolation "fk_investigations_current_node_same_version"),
       (nodes.any fun n => s.steps.any fun r =>
          r.playbookVersionID = versionID && r.nodeID = n.id,
        .pg .foreignKeyViolation "fk_investigation_steps_node_same_version")]
      ⟨.ok (), nodes.map fun n => (.node n.id, .update), [.deleteNodes versionID nodes]⟩)
    fun err => err

/-- The node as its row holds it. -/
def storedNode (n : Node) : Node := { n with metadata := n.metadata.map Json.jsonb }

def insertNode (versionID : UUID) (n : Node) : Db Unit :=
  sql (fun s =>
    .guarded
      [(!(n.kind.valid && storableText n.title && storableText n.description &&
          storableOption n.terminalResolution && storableJson n.metadata), .other),
       (decide (n.kind = .terminal) != n.terminalResolution.isSome,
        .pg .checkViolation "chk_playbook_nodes_terminal_resolution"),
       (s.nodes.any (fun r => r.node.id = n.id), .pg .uniqueViolation "playbook_nodes_pkey"),
       ((s.versionRows versionID).isEmpty,
        .pg .foreignKeyViolation "playbook_nodes_playbook_version_id_fkey")]
      ⟨.ok (), [(.node n.id, .update), (.version versionID, .keyShare)],
        [.insertNode ⟨versionID, storedNode n⟩]⟩) fun err => err

def insertEdge (versionID : UUID) (e : Edge) : Db Unit :=
  sql (fun s =>
    .guarded
      [(!(int4 e.sortOrder && storableText e.label && storableOption e.description), .other),
       (s.edges.any (fun r => r.edge.id = e.id), .pg .uniqueViolation "playbook_edges_pkey"),
       (s.edges.any (fun r => r.edge.fromNodeID = e.fromNodeID ∧ r.edge.label = e.label),
        .pg .uniqueViolation "playbook_edges_from_node_id_label_key"),
       ((s.versionRows versionID).isEmpty,
        .pg .foreignKeyViolation "playbook_edges_playbook_version_id_fkey"),
       (!(s.nodesOf versionID).any (fun n => n.id = e.fromNodeID),
        .pg .foreignKeyViolation "fk_playbook_edges_from_node_same_version"),
       (!(s.nodesOf versionID).any (fun n => n.id = e.toNodeID),
        .pg .foreignKeyViolation "fk_playbook_edges_to_node_same_version")]
      ⟨.ok (),
        [(.edge e.id, .update), (.edgeLabel e.fromNodeID e.label, .update),
         (.version versionID, .keyShare), (.node e.fromNodeID, .keyShare),
         (.node e.toNodeID, .keyShare)],
        [.insertEdge ⟨versionID, e⟩]⟩) fun err => err

/-- `ORDER BY title, id` -/
def nodeOrder (a b : Node) : Bool := a.title < b.title || (a.title = b.title && a.id ≤ b.id)

/-- `ORDER BY sort_order, label, id` -/
def edgeOrder (a b : Edge) : Bool :=
  a.sortOrder < b.sortOrder || (a.sortOrder = b.sortOrder &&
    (a.label < b.label || (a.label = b.label && a.id ≤ b.id)))

def selectVersion (versionID : UUID) : Db Version :=
  sql (fun s => .row (s.versionRows versionID).head?) (notFound "playbook version")

def sortNodes (nodes : List Node) : List Node := nodes.insertionSort fun a b => nodeOrder a b

def sortEdgeRows (edges : List Edge) : List Edge := edges.insertionSort fun a b => edgeOrder a b

def selectNodes (versionID : UUID) : Db (List Node) :=
  sql (fun s => .read (sortNodes (s.nodesOf versionID))) translated

def selectEdges (versionID : UUID) : Db (List Edge) :=
  sql (fun s => .read (sortEdgeRows (s.edgesOf versionID))) translated

/-! ## Loading and writing graphs -/

def loadGraph (versionID : UUID) (rootNodeID : Option UUID) : Db Graph := do
  let nodes ← selectNodes versionID
  let edges ← selectEdges versionID
  return ⟨rootNodeID, nodes, edges⟩

def loadDefinition (versionID : UUID) : Db Definition := do
  let version ← selectVersion versionID
  let graph ← loadGraph versionID version.rootNodeID
  return ⟨version, graph⟩

/-- Run queued statements up to the first failure. -/
def execBatch : List (Db Unit) → Db Unit
  | [] => return
  | statement :: rest => do
    statement
    execBatch rest

/-- All parameters of a batch are encoded before any of it is sent, and a sort order outside
of the column's range cannot be encoded. -/
def sendEdges (versionID : UUID) (edges : List Edge) : Db Unit :=
  if edges.all (fun e => int4 e.sortOrder) then execBatch (edges.map (insertEdge versionID))
  else throw .other

def writeRoot (versionID : UUID) : Option UUID → Db Unit
  | none => return
  | some root => setRoot versionID (some root)

def writeGraph (versionID : UUID) (g : Graph) : Db Unit := do
  execBatch (g.nodes.map (insertNode versionID))
  sendEdges versionID g.edges
  writeRoot versionID g.rootNodeID

def clearGraph (versionID : UUID) : Db Unit := do
  setRoot versionID none
  deleteEdges versionID
  deleteNodes versionID

/-- The new id of a node: the last one given to a node of its old id. -/
def idMap (fresh : Nat → UUID) (nodes : List Node) (id : UUID) : Option UUID :=
  (nodes.zipIdx.reverse.find? (fun p => p.1.id = id)).map fun p => fresh p.2

/-- A copy with ids drawn from `fresh`, for the nodes first. A missing key of the id map
reads as the nil id. -/
def cloneGraph (fresh : Nat → UUID) (src : Graph) : Graph where
  rootNodeID := src.rootNodeID.bind (idMap fresh src.nodes)
  nodes := src.nodes.zipIdx.map fun (n, k) => { n with id := fresh k }
  edges := src.edges.zipIdx.map fun (e, k) =>
    { e with
      id := fresh (src.nodes.length + k)
      fromNodeID := (idMap fresh src.nodes e.fromNodeID).getD UUID.nil
      toNodeID := (idMap fresh src.nodes e.toNodeID).getD UUID.nil }

/-! ## Transactions -/

def createBody (playbookID versionID : UUID) (now : Time) (input : NewPlaybook) :
    Db (Playbook × Definition) := do
  let pb ← insertPlaybook playbookID now input
  let version ← insertVersion versionID now pb.id 1
  writeGraph version.id input.graph
  let definition ← loadDefinition version.id
  return (pb, definition)

def create (playbookID versionID : UUID) (now : Time) (input : NewPlaybook) :
    Svc (Playbook × Definition) := inTx (createBody playbookID versionID now input)

/-- Lock and load the version to clone, if there is one. -/
def loadSource : Option UUID → Db (Option Definition)
  | none => return none
  | some cloneFrom => do
    let _ ← lockVersionShared cloneFrom
    let loaded ← loadDefinition cloneFrom
    return some loaded

def checkOwner (playbookID : UUID) (cloneFrom : Option UUID) : Option Definition → Db Unit
  | none => return
  | some source =>
    if source.version.playbookID ≠ playbookID then
      throw (.app (.validation "clone_from_version_id %s belongs to a different playbook"
        (cloneFrom.toList.map .uuid)))
    else return

def writeClone (versionID : UUID) (fresh : Nat → UUID) : Option Definition → Db Unit
  | none => return
  | some source => writeGraph versionID (cloneGraph fresh source.graph)

/-- The source version is locked before the playbook. -/
def createVersionBody (playbookID : UUID) (cloneFrom : Option UUID) (versionID : UUID)
    (fresh : Nat → UUID) (now : Time) : Db Definition := do
  let source ← loadSource cloneFrom
  let _ ← lockPlaybook playbookID
  checkOwner playbookID cloneFrom source
  let next ← nextVersion playbookID
  let version ← insertVersion versionID now playbookID next
  writeClone version.id fresh source
  loadDefinition version.id

def createVersion (playbookID : UUID) (cloneFrom : Option UUID) (versionID : UUID)
    (fresh : Nat → UUID) (now : Time) : Svc Definition :=
  inTx (createVersionBody playbookID cloneFrom versionID fresh now)

def getVersion (versionID : UUID) : Svc Definition := onPool (loadDefinition versionID)

def replaceGraphBody (versionID : UUID) (g : Graph) : Db Definition := do
  let version ← lockVersion versionID
  if version.isDraft then
    clearGraph versionID
    writeGraph versionID g
    loadDefinition versionID
  else
    throw (.app (.new .versionNotDraft
      ("playbook version %s is %s; published definitions are immutable — " ++
        "create a new version instead") [.uuid versionID, version.status.arg]))

def replaceGraph (versionID : UUID) (g : Graph) : Svc Definition :=
  inTx (replaceGraphBody versionID g)

def publishBody (versionID : UUID) (now : Time) : Db Definition := do
  let version ← lockVersion versionID
  if version.isDraft then
    let graph ← loadGraph versionID version.rootNodeID
    if graph.validate = [] then
      setPublished versionID now
      loadDefinition versionID
    else throw (.app (validationError graph.validate))
  else
    throw (.app (.new .versionNotDraft "playbook version %s is already %s"
      [.uuid versionID, version.status.arg]))

def publish (versionID : UUID) (now : Time) : Svc Definition := inTx (publishBody versionID now)

/-- `ORDER BY version DESC` -/
def getBody (id : UUID) : Db (Playbook × List Version) := do
  let pb ← sql (fun s => .row (s.playbooks.filter (fun p => p.id = id)).head?)
    (notFound "playbook")
  let versions ← sql (fun s => .read ((s.versions.filter (fun v => v.playbookID = id)).insertionSort
    fun a b => b.version ≤ a.version)) translated
  return (pb, versions)

def get (id : UUID) : Svc (Playbook × List Version) := onPool (getBody id)

/-- `ORDER BY created_at DESC, id` -/
def playbookOrder (a b : Playbook) : Bool :=
  b.createdAt < a.createdAt || (a.createdAt = b.createdAt && a.id ≤ b.id)

/-- `WHERE ($1 = '' OR alert_type = $1)` -/
def listBody (alertType : String) : Db (List Playbook) :=
  sql (fun s => .guarded [(!storableText alertType, .other)]
    (.read ((s.playbooks.filter fun p => alertType = "" || p.alertType = alertType).insertionSort
      fun a b => playbookOrder a b))) translated

def list (alertType : String) : Svc (List Playbook) := onPool (listBody alertType)

end PlaybookRepository

end Interbellum
