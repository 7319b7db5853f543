import Interbellum.Postgres.AlertRepository
import Interbellum.Postgres.InvestigationRepository

/-!
# The investigation service

Starting an investigation, showing where it stands, advancing it and reporting on it. Each
repository call is a transaction, or statements, of its own.
-/

namespace Interbellum

namespace InvestigationService

structure State where
  investigation : Investigation
  alert : Alert
  currentNode : Node
  availableChoices : List Edge
  steps : List Step
  deriving DecidableEq

structure Report where
  investigation : Investigation
  alert : Alert
  definition : Definition
  steps : List Step
  deriving DecidableEq

/-- The edges selectable right now: none once the investigation is completed. -/
def choicesFor (g : Graph) (inv : Investigation) : List Edge :=
  if inv.isCompleted then [] else g.outgoingEdges inv.currentNodeID

/-- The root of the loaded version, if it has one among its nodes. -/
def usableRoot (d : Definition) : Option Node := d.version.rootNodeID.bind d.graph.nodeByID

/-- Reported when a loaded version has no usable root. -/
def noRoot (versionID : UUID) (d : Definition) : AppError :=
  if d.version.status ≠ .published then
    .new .versionNotPublished
      "playbook version %s is %s; only published versions can back an investigation"
      [.uuid versionID, d.version.status.arg]
  else .internal

/-- What `start` decides from what it has read. -/
def startFrom (versionID : UUID) (now : Time) (alertRecord : Alert) (d : Definition)
    (owner : Playbook) : Except AppError (Investigation × Node) :=
  if owner.alertType ≠ alertRecord.alertType then
    .error (.new .alertTypeMismatch
      "playbook version %s handles alert_type %q, but alert %s is of type %q"
      [.uuid versionID, .str owner.alertType, .uuid alertRecord.id, .str alertRecord.alertType])
  else
    match usableRoot d with
    | none => .error (noRoot versionID d)
    | some root => (Investigation.start alertRecord.id d.version root now).map fun i => (i, root)

def start (investigationID : UUID) (now : Time) (alertID versionID : UUID) : Svc State := do
  let alertRecord ← AlertRepository.get alertID
  let d ← PlaybookRepository.getVersion versionID
  let (owner, _) ← PlaybookRepository.get d.version.playbookID
  match startFrom versionID now alertRecord d owner with
  | .error e => throw e
  | .ok (inv, root) =>
    let created ← InvestigationRepository.create investigationID inv
    return ⟨created, alertRecord, root, choicesFor d.graph created, []⟩

def buildState (inv : Investigation) (steps : List Step) : Svc State := do
  let alertRecord ← AlertRepository.get inv.alertID
  let d ← PlaybookRepository.getVersion inv.playbookVersionID
  match d.graph.nodeByID inv.currentNodeID with
  | none => throw .internal
  | some currentNode =>
    return ⟨inv, alertRecord, currentNode, choicesFor d.graph inv, steps⟩

def get (id : UUID) : Svc State := do
  let (inv, steps) ← InvestigationRepository.getWithSteps id
  buildState inv steps

def validateDecision (input : DecisionInput) : Except AppError Unit :=
  if !input.actor.type.valid then
    .error (.validation "actor.type must be %q or %q" [.str "human", .str "agent"])
  else if input.edgeID = UUID.nil then .error (.validation "edge_id is required" [])
  else validateEvidence input.evidence

def submitDecision (stepID : UUID) (now txNow : Time) (investigationID : UUID)
    (input : DecisionInput) : Svc State :=
  match validateDecision input with
  | .error e => throw e
  | .ok () => do
    let _ ← InvestigationRepository.applyDecision stepID now txNow investigationID input
    get investigationID

def report (id : UUID) : Svc Report := do
  let (inv, steps) ← InvestigationRepository.getWithSteps id
  let alertRecord ← AlertRepository.get inv.alertID
  let d ← PlaybookRepository.getVersion inv.playbookVersionID
  return ⟨inv, alertRecord, d, steps⟩

end InvestigationService

end Interbellum
