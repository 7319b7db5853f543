import Interbellum.Http.Decode
import Interbellum.Service.InvestigationService

/-!
# Investigations in responses

The wire form of the state of an investigation and of its report. The values of a map are kept
as the database returns them.
-/

namespace Interbellum

def NodeKind.text : NodeKind → String
  | .decision => "decision"
  | .terminal => "terminal"
  | .unknown raw => raw

def ActorType.text : ActorType → String
  | .human => "human"
  | .agent => "agent"
  | .unknown raw => raw

def Status.text : Status → String
  | .inProgress => "in_progress"
  | .completed => "completed"

namespace Http.Response

structure Alert where
  id : UUID
  externalID : Option String
  alertType : String
  title : String
  description : String
  payload : Json
  occurredAt : Time
  createdAt : Time

structure EvidenceItem where
  type : String
  summary : String
  data : Option (List (String × Json))

structure Actor where
  type : String
  id : Option String

structure AvailableChoice where
  edgeID : UUID
  label : String
  description : Option String
  toNodeID : UUID

structure Step where
  id : UUID
  sequenceNumber : ℕ
  nodeID : UUID
  selectedEdgeID : UUID
  actor : Actor
  rationale : Option String
  evidence : List EvidenceItem
  createdAt : Time

structure PathStep where
  stepNumber : ℕ
  nodeID : UUID
  selectedEdgeID : UUID
  actor : Actor
  rationale : Option String
  evidence : List EvidenceItem
  createdAt : Time

structure Node where
  id : UUID
  kind : String
  title : String
  description : String
  terminalResolution : Option String
  metadata : Option (List (String × Json))

structure Edge where
  id : UUID
  fromNodeID : UUID
  toNodeID : UUID
  label : String
  description : Option String
  sortOrder : ℤ

structure PlaybookVersionDefinition where
  id : UUID
  playbookID : UUID
  version : ℕ
  status : String
  createdAt : Time
  publishedAt : Option Time
  rootNodeID : Option UUID
  nodes : List Node
  edges : List Edge

structure InvestigationState where
  id : UUID
  alert : Alert
  playbookVersionID : UUID
  status : String
  currentNode : Node
  availableChoices : List AvailableChoice
  finalResolution : Option String
  startedAt : Time
  completedAt : Option Time
  steps : List Step

structure ReportInvestigation where
  id : UUID
  status : String
  finalResolution : Option String
  startedAt : Time
  completedAt : Option Time

structure InvestigationReport where
  investigation : ReportInvestigation
  alert : Alert
  playbookVersion : PlaybookVersionDefinition
  path : List PathStep

/-! ## From the domain -/

/-- A stored object as a map; anything else leaves the map nil. -/
def toMap : Json → Option (List (String × Json))
  | .obj members =>
    some (members.foldl (fun entries m => Decoder.setEntry m.1 m.2 entries) [])
  | _ => none

/-- A payload of null is shown as an empty object. -/
def toAlert (a : Interbellum.Alert) : Alert where
  id := a.id
  externalID := a.externalID
  alertType := a.alertType
  title := a.title
  description := a.description
  payload := if a.payload = .null then .obj [] else a.payload
  occurredAt := a.occurredAt
  createdAt := a.createdAt

def fromEvidenceItems (items : List Interbellum.EvidenceItem) : List EvidenceItem :=
  items.map fun item => ⟨item.type, item.summary, item.data.bind toMap⟩

def toActor (a : Interbellum.Actor) : Actor := ⟨a.type.text, a.id⟩

def toNode (n : Interbellum.Node) : Node where
  id := n.id
  kind := n.kind.text
  title := n.title
  description := n.description
  terminalResolution := n.terminalResolution
  metadata := n.metadata.bind toMap

def toEdge (e : Interbellum.Edge) : Edge where
  id := e.id
  fromNodeID := e.fromNodeID
  toNodeID := e.toNodeID
  label := e.label
  description := e.description
  sortOrder := e.sortOrder

def toDefinition (d : Definition) : PlaybookVersionDefinition where
  id := d.version.id
  playbookID := d.version.playbookID
  version := d.version.version
  status := d.version.status.text
  createdAt := d.version.createdAt
  publishedAt := d.version.publishedAt
  rootNodeID := d.graph.rootNodeID
  nodes := d.graph.nodes.map toNode
  edges := d.graph.edges.map toEdge

def toStep (s : Interbellum.Step) : Step where
  id := s.id
  sequenceNumber := s.sequenceNumber
  nodeID := s.nodeID
  selectedEdgeID := s.selectedEdgeID
  actor := toActor s.actor
  rationale := s.rationale
  evidence := fromEvidenceItems s.evidence
  createdAt := s.createdAt

def toPathStep (s : Interbellum.Step) : PathStep where
  stepNumber := s.sequenceNumber
  nodeID := s.nodeID
  selectedEdgeID := s.selectedEdgeID
  actor := toActor s.actor
  rationale := s.rationale
  evidence := fromEvidenceItems s.evidence
  createdAt := s.createdAt

def toChoice (e : Interbellum.Edge) : AvailableChoice := ⟨e.id, e.label, e.description, e.toNodeID⟩

def toInvestigationState (s : InvestigationService.State) : InvestigationState where
  id := s.investigation.id
  alert := toAlert s.alert
  playbookVersionID := s.investigation.playbookVersionID
  status := s.investigation.status.text
  currentNode := toNode s.currentNode
  availableChoices := s.availableChoices.map toChoice
  finalResolution := s.investigation.finalResolution
  startedAt := s.investigation.startedAt
  completedAt := s.investigation.completedAt
  steps := s.steps.map toStep

def toInvestigationReport (r : InvestigationService.Report) : InvestigationReport where
  investigation :=
    { id := r.investigation.id
      status := r.investigation.status.text
      finalResolution := r.investigation.finalResolution
      startedAt := r.investigation.startedAt
      completedAt := r.investigation.completedAt }
  alert := toAlert r.alert
  playbookVersion := toDefinition r.definition
  path := r.steps.map toPathStep

end Http.Response

end Interbellum
