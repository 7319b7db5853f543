import Interbellum.Domain.Graph

/-!
# Investigations and decisions

One alert worked through one playbook version. `Investigation` is where a run stands,
`Step` records are its history, and `decide` is the rule by which a selected edge moves it.
-/

namespace Interbellum

inductive Status where
  | inProgress
  | completed
  deriving DecidableEq, Repr

/-- `unknown` is any string that is not one of the two types. -/
inductive ActorType where
  | human
  | agent
  | unknown (raw : String)
  deriving DecidableEq, Repr

def ActorType.valid : ActorType → Bool
  | .human => true
  | .agent => true
  | .unknown _ => false

structure Actor where
  type : ActorType
  id : Option String
  deriving DecidableEq, Repr

structure Investigation where
  id : UUID
  alertID : UUID
  playbookVersionID : UUID
  status : Status
  currentNodeID : UUID
  startedAt : Time
  completedAt : Option Time
  finalResolution : Option String
  deriving DecidableEq, Repr

def Investigation.isCompleted (i : Investigation) : Bool := i.status = .completed

/-- `data` is absent when the raw message is empty. -/
structure EvidenceItem where
  type : String
  summary : String
  data : Option Json
  deriving DecidableEq

structure Step where
  id : UUID
  investigationID : UUID
  playbookVersionID : UUID
  sequenceNumber : Nat
  nodeID : UUID
  selectedEdgeID : UUID
  actor : Actor
  rationale : Option String
  evidence : List EvidenceItem
  idempotencyKey : Option String
  createdAt : Time
  deriving DecidableEq

structure DecisionInput where
  edgeID : UUID
  actor : Actor
  rationale : Option String
  evidence : List EvidenceItem
  idempotencyKey : Option String
  deriving DecidableEq

structure DecisionResult where
  investigation : Investigation
  step : Step
  replayed : Bool
  deriving DecidableEq

/-! ## Evidence -/

/-- Unicode `White_Space`, which `strings.TrimSpace` removes. -/
def isSpace (c : Char) : Bool :=
  let n := c.toNat
  (0x9 ≤ n && n ≤ 0xD) || n = 0x20 || n = 0x85 || n = 0xA0 || n = 0x1680 ||
    (0x2000 ≤ n && n ≤ 0x200A) || n = 0x2028 || n = 0x2029 || n = 0x202F || n = 0x205F ||
    n = 0x3000

/-- `strings.TrimSpace(s) == ""` -/
def isBlank (s : String) : Bool := s.toList.all isSpace

def EvidenceItem.validate (e : EvidenceItem) : Except AppError Unit :=
  if isBlank e.type then
    .error (.validation "evidence item is missing required field \"type\"" [])
  else if isBlank e.summary then
    .error (.validation "evidence item %q is missing required field \"summary\"" [.str e.type])
  else .ok ()

/-- The message of the item's error follows the index of the item. -/
def validateEvidenceFrom (i : Nat) : List EvidenceItem → Except AppError Unit
  | [] => .ok ()
  | item :: rest =>
    match item.validate with
    | .error err => .error (.validation ("evidence[%d]: " ++ err.format) (.int i :: err.args))
    | .ok () => validateEvidenceFrom (i + 1) rest

def validateEvidence (items : List EvidenceItem) : Except AppError Unit :=
  validateEvidenceFrom 0 items

/-! ## Starting and deciding -/

def VersionStatus.arg (s : VersionStatus) : Arg := .str s.text

/-- The initial state of an investigation of `alertID`. The row gets its id when it is
created; until then the id is nil. -/
def Investigation.start (alertID : UUID) (version : Version) (root : Node) (now : Time) :
    Except AppError Investigation :=
  if version.status ≠ .published then
    .error (.new .versionNotPublished
      "playbook version %s is %s; only published versions can back an investigation"
      [.uuid version.id, version.status.arg])
  else
    let inv : Investigation :=
      { id := UUID.nil
        alertID := alertID
        playbookVersionID := version.id
        status := .inProgress
        currentNodeID := root.id
        startedAt := now
        completedAt := none
        finalResolution := none }
    if root.kind = .terminal then
      .ok { inv with
        status := .completed
        completedAt := some now
        finalResolution := root.terminalResolution }
    else .ok inv

/-- The state after selecting `edge`, whose target is `destination`. -/
def Investigation.decide (inv : Investigation) (edge : Edge) (destination : Node) (now : Time) :
    Except AppError Investigation :=
  if inv.isCompleted then
    .error (.new .investigationCompleted
      "investigation %s is already completed and cannot be advanced" [.uuid inv.id])
  else if edge.fromNodeID ≠ inv.currentNodeID then
    .error (.new .invalidTransition
      "edge %s originates at node %s, but the investigation is at node %s"
      [.uuid edge.id, .uuid edge.fromNodeID, .uuid inv.currentNodeID])
  else if edge.toNodeID ≠ destination.id then
    .error .internal
  else
    let next := { inv with currentNodeID := destination.id }
    if destination.kind = .terminal then
      .ok { next with
        status := .completed
        completedAt := some now
        finalResolution := destination.terminalResolution }
    else .ok next

end Interbellum
