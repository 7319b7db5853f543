import Interbellum.Domain.Alert
import Interbellum.Domain.Investigation
import Interbellum.Txn.Program

/-!
# The tables

The state of the database is the list of rows of each table, in insertion order. A write is
what a statement does to the rows it names.
-/

namespace Interbellum

structure NodeRow where
  versionID : UUID
  node : Node
  deriving DecidableEq

structure EdgeRow where
  versionID : UUID
  edge : Edge
  deriving DecidableEq

/-- A step as stored: the evidence is a `jsonb` value, or null. -/
structure StepRow where
  id : UUID
  investigationID : UUID
  playbookVersionID : UUID
  sequenceNumber : Nat
  nodeID : UUID
  selectedEdgeID : UUID
  actor : Actor
  rationale : Option String
  evidence : Option Json
  idempotencyKey : Option String
  createdAt : Time
  deriving DecidableEq

structure Store where
  playbooks : List Playbook
  versions : List Version
  nodes : List NodeRow
  edges : List EdgeRow
  alerts : List Alert
  investigations : List Investigation
  steps : List StepRow
  deriving DecidableEq

namespace Store

/-- The database after the migration. -/
def empty : Store := ⟨[], [], [], [], [], [], []⟩

variable (s : Store)

/-- The rows of `playbook_versions` with this id. -/
def versionRows (id : UUID) : List Version := s.versions.filter (fun v => v.id = id)

/-- The version numbers of a playbook, in the order in which the rows were inserted. -/
def versionNumbers (playbookID : UUID) : List Nat :=
  (s.versions.filter (fun v => v.playbookID = playbookID)).map Version.version

def nodeRows (versionID : UUID) : List NodeRow := s.nodes.filter (fun r => r.versionID = versionID)

def edgeRows (versionID : UUID) : List EdgeRow := s.edges.filter (fun r => r.versionID = versionID)

def nodesOf (versionID : UUID) : List Node := (s.nodeRows versionID).map NodeRow.node

def edgesOf (versionID : UUID) : List Edge := (s.edgeRows versionID).map EdgeRow.edge

def stepsOf (investigationID : UUID) : List StepRow :=
  s.steps.filter (fun r => r.investigationID = investigationID)

def investigationRows (id : UUID) : List Investigation :=
  s.investigations.filter (fun i => i.id = id)

end Store

/-! ## Writes -/

inductive Write where
  | insertPlaybook (p : Playbook)
  | insertVersion (v : Version)
  | setRoot (versionID : UUID) (root : Option UUID)
  | setPublished (versionID : UUID) (at' : Time)
  | insertNode (row : NodeRow)
  | deleteNodes (versionID : UUID) (nodes : List Node)
  | insertEdge (row : EdgeRow)
  | deleteEdges (versionID : UUID) (edges : List Edge)
  | insertAlert (a : Alert)
  | insertInvestigation (i : Investigation)
  | setState (id currentNodeID : UUID) (status : Status) (completedAt : Option Time)
      (finalResolution : Option String)
  | insertStep (row : StepRow)
  deriving DecidableEq

def Version.withRoot (root : Option UUID) (v : Version) : Version := { v with rootNodeID := root }

def Version.published (at' : Time) (v : Version) : Version :=
  { v with status := .published, publishedAt := some at' }

def Investigation.withState (currentNodeID : UUID) (status : Status) (completedAt : Option Time)
    (finalResolution : Option String) (i : Investigation) : Investigation :=
  { i with
    currentNodeID := currentNodeID
    status := status
    completedAt := completedAt
    finalResolution := finalResolution }

/-- Change the rows with one id. -/
def updateWhere {α : Type} (p : α → Bool) (f : α → α) (rows : List α) : List α :=
  rows.map fun r => if p r then f r else r

def Store.write (s : Store) : Write → Store
  | .insertPlaybook p => { s with playbooks := s.playbooks ++ [p] }
  | .insertVersion v => { s with versions := s.versions ++ [v] }
  | .setRoot id root =>
    { s with versions := updateWhere (fun v => v.id = id) (Version.withRoot root) s.versions }
  | .setPublished id at' =>
    { s with versions := updateWhere (fun v => v.id = id) (Version.published at') s.versions }
  | .insertNode row => { s with nodes := s.nodes ++ [row] }
  | .deleteNodes id nodes =>
    { s with nodes := s.nodes.filter fun r => !(r.versionID = id && r.node ∈ nodes) }
  | .insertEdge row => { s with edges := s.edges ++ [row] }
  | .deleteEdges id edges =>
    { s with edges := s.edges.filter fun r => !(r.versionID = id && r.edge ∈ edges) }
  | .insertAlert a => { s with alerts := s.alerts ++ [a] }
  | .insertInvestigation i => { s with investigations := s.investigations ++ [i] }
  | .setState id currentNodeID status completedAt finalResolution =>
    let update := Investigation.withState currentNodeID status completedAt finalResolution
    { s with investigations := updateWhere (fun i => i.id = id) update s.investigations }
  | .insertStep row => { s with steps := s.steps ++ [row] }

instance : Txn.Writable Store Write := ⟨Store.write⟩

@[simp] theorem writable_write (s : Store) (w : Write) : Txn.Writable.write s w = s.write w := rfl

end Interbellum
