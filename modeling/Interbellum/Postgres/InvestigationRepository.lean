import Mathlib.Data.List.Forall2
import Interbellum.Domain.JsonValue
import Interbellum.Postgres.PlaybookRepository

/-!
# The investigation repository

Investigations, their steps, and `applyDecision`, the transaction that advances a run by
one edge under the row lock of the investigation.
-/

namespace Interbellum

/-! ## Evidence as stored -/

namespace EvidenceItem

def toJson (e : EvidenceItem) : Json :=
  .obj ([("type", .str e.type), ("summary", .str e.summary)] ++
    e.data.toList.map fun d => ("data", d))

/-- The string under a member name; an absent member and null leave it empty. -/
def stringField (members : List (String × Json)) (name : String) : Except Err String :=
  match members.lookup name with
  | none | some .null => .ok ""
  | some (.str s) => .ok s
  | some _ => .error (.app .internal)

def ofJson : Json → Except Err EvidenceItem
  | .null => .ok ⟨"", "", none⟩
  | .obj members => do
    let type ← stringField members "type"
    let summary ← stringField members "summary"
    return ⟨type, summary, members.lookup "data"⟩
  | _ => .error (.app .internal)

/-- The item as it is read back. -/
def stored (e : EvidenceItem) : EvidenceItem := { e with data := e.data.map Json.jsonb }

theorem ofJson_jsonb (e : EvidenceItem) : ofJson e.toJson.jsonb = .ok e.stored := by
  have hsummary : "summary" < "type" := by decide
  have hdata : "data" < "summary" := by decide
  cases e with
  | mk type summary data =>
    cases data with
    | none =>
      simp only [toJson, Json.jsonb, Json.jsonbMembers, Json.insertMember, Option.toList,
        List.map_nil, List.append_nil, if_pos hsummary]
      rfl
    | some d =>
      simp only [toJson, Json.jsonb, Json.jsonbMembers, Json.insertMember, Option.toList,
        List.map_cons, List.map_nil, List.cons_append, List.nil_append, if_pos hsummary,
        if_pos hdata]
      rfl

/-- What is read back is stored as the item was. -/
theorem toJson_stored (e : EvidenceItem) : e.stored.toJson.jsonb = e.toJson.jsonb := by
  cases e with
  | mk type summary data =>
    cases data with
    | none => rfl
    | some d => simp [toJson, stored, Json.jsonb, Json.jsonbMembers, Json.jsonb_jsonb]

end EvidenceItem

/-- No items are stored as null. -/
def encodeEvidence (items : List EvidenceItem) : Option Json :=
  if items.isEmpty then none else some (.arr (items.map EvidenceItem.toJson))

def decodeItems : List Json → Except Err (List EvidenceItem)
  | [] => .ok []
  | j :: rest => do
    let item ← EvidenceItem.ofJson j
    let items ← decodeItems rest
    return item :: items

def decodeEvidence : Option Json → Except Err (List EvidenceItem)
  | none | some .null => .ok []
  | some (.arr items) => decodeItems items
  | some _ => .error (.app .internal)

theorem decodeItems_jsonb (items : List EvidenceItem) :
    decodeItems ((items.map EvidenceItem.toJson).map Json.jsonb) =
      .ok (items.map EvidenceItem.stored) := by
  induction items with
  | nil => rfl
  | cons e rest ih =>
    rw [List.map_cons, List.map_cons, decodeItems, EvidenceItem.ofJson_jsonb, ih]
    rfl

theorem decodeEvidence_jsonb (items : List EvidenceItem) :
    decodeEvidence ((encodeEvidence items).map Json.jsonb) =
      .ok (items.map EvidenceItem.stored) := by
  unfold encodeEvidence
  cases items with
  | nil => rfl
  | cons e rest =>
    show decodeItems (Json.jsonbItems _) = _
    rw [Json.jsonbItems_eq]
    exact decodeItems_jsonb (e :: rest)

theorem encodeEvidence_stored (items : List EvidenceItem) :
    (encodeEvidence (items.map EvidenceItem.stored)).map Json.jsonb =
      (encodeEvidence items).map Json.jsonb := by
  have hitems : ((items.map EvidenceItem.stored).map EvidenceItem.toJson).map Json.jsonb =
      (items.map EvidenceItem.toJson).map Json.jsonb := by
    simp only [List.map_map]
    exact List.map_congr_left fun e _ => e.toJson_stored
  unfold encodeEvidence
  cases items with
  | nil => rfl
  | cons e rest =>
    show some (Json.arr (Json.jsonbItems _)) = some (Json.arr (Json.jsonbItems _))
    rw [Json.jsonbItems_eq, Json.jsonbItems_eq, hitems]

/-- Evidence is stored alike when it is read back alike. -/
theorem encodeEvidence_inj {xs ys : List EvidenceItem} :
    (encodeEvidence xs).map Json.jsonb = (encodeEvidence ys).map Json.jsonb ↔
      xs.map EvidenceItem.stored = ys.map EvidenceItem.stored := by
  constructor
  · intro h
    have hdecode := congrArg decodeEvidence h
    rw [decodeEvidence_jsonb, decodeEvidence_jsonb] at hdecode
    exact Except.ok.inj hdecode
  · intro h
    rw [← encodeEvidence_stored xs, h, encodeEvidence_stored]

/-- The evidence of the row is what some items are stored as. -/
def StepRow.Readable (r : StepRow) : Prop :=
  ∃ items, r.evidence = (encodeEvidence items).map Json.jsonb

def scanStep (r : StepRow) : Except Err Step := do
  let evidence ← decodeEvidence r.evidence
  return {
    id := r.id
    investigationID := r.investigationID
    playbookVersionID := r.playbookVersionID
    sequenceNumber := r.sequenceNumber
    nodeID := r.nodeID
    selectedEdgeID := r.selectedEdgeID
    actor := r.actor
    rationale := r.rationale
    evidence := evidence
    idempotencyKey := r.idempotencyKey
    createdAt := r.createdAt }

def scanSteps : List StepRow → Except Err (List Step)
  | [] => .ok []
  | r :: rest => do
    let step ← scanStep r
    let steps ← scanSteps rest
    return step :: steps

theorem StepRow.Readable.scan {r : StepRow} (h : r.Readable) :
    ∃ step, scanStep r = .ok step := by
  obtain ⟨items, hitems⟩ := h
  rw [scanStep, hitems, decodeEvidence_jsonb]
  exact ⟨_, rfl⟩

theorem scanSteps_readable {rows : List StepRow} (h : ∀ r ∈ rows, r.Readable) :
    ∃ steps, scanSteps rows = .ok steps := by
  induction rows with
  | nil => exact ⟨[], rfl⟩
  | cons r rest ih =>
    obtain ⟨step, hstep⟩ := (h r List.mem_cons_self).scan
    obtain ⟨steps, hsteps⟩ := ih fun r' hr' => h r' (List.mem_cons_of_mem _ hr')
    rw [scanSteps, hstep, hsteps]
    exact ⟨step :: steps, rfl⟩

theorem scanSteps_eq_ok {rows : List StepRow} {steps : List Step} :
    scanSteps rows = .ok steps ↔ List.Forall₂ (fun r step => scanStep r = .ok step) rows steps := by
  induction rows generalizing steps with
  | nil =>
    rw [List.forall₂_nil_left_iff, scanSteps]
    exact ⟨fun h => (Except.ok.inj h).symm, fun h => by rw [h]⟩
  | cons r rest ih =>
    rw [List.forall₂_cons_left_iff, scanSteps]
    constructor
    · intro h
      cases hstep : scanStep r with
      | error e => simp [hstep, bind, Except.bind] at h
      | ok step =>
        cases hrest : scanSteps rest with
        | error e => simp [hstep, hrest, bind, Except.bind] at h
        | ok steps' =>
          obtain rfl : step :: steps' = steps := by
            simpa [hstep, hrest, bind, Except.bind, pure, Except.pure] using h
          exact ⟨step, steps', rfl, ih.mp hrest, rfl⟩
    · rintro ⟨step, steps', hstep, hrest, rfl⟩
      rw [hstep, ih.mpr hrest]
      rfl

/-- What a scan keeps of each row, it keeps of all of them. -/
theorem map_scanSteps {α : Type} {f : Step → α} {g : StepRow → α}
    (hscan : ∀ r step, scanStep r = .ok step → f step = g r) {rows : List StepRow}
    {steps : List Step} (h : scanSteps rows = .ok steps) : steps.map f = rows.map g := by
  induction scanSteps_eq_ok.mp h with
  | nil => rfl
  | cons hstep hrest ih =>
    rw [List.map_cons, List.map_cons, hscan _ _ hstep, ih (scanSteps_eq_ok.mpr hrest)]

/-- A row that is scanned is among the scanned steps. -/
theorem mem_scanSteps {rows : List StepRow} {steps : List Step} (h : scanSteps rows = .ok steps)
    {r : StepRow} (hr : r ∈ rows) {step : Step} (hstep : scanStep r = .ok step) :
    step ∈ steps := by
  obtain ⟨k, hk, rfl⟩ := List.mem_iff_getElem.mp hr
  have hall := scanSteps_eq_ok.mp h
  have hlen : k < steps.length := hall.length_eq ▸ hk
  have hget : scanStep rows[k] = .ok steps[k] := (List.forall₂_iff_get.mp hall).2 k hk hlen
  rw [hstep] at hget
  rw [Except.ok.inj hget]
  exact List.getElem_mem hlen

namespace InvestigationRepository

/-! ## Statements -/

/-- `chk_investigations_completion` -/
def completionCheck (status : Status) (completedAt : Option Time)
    (finalResolution : Option String) : Bool :=
  match status with
  | .completed => completedAt.isSome && finalResolution.isSome
  | .inProgress => completedAt.isNone && finalResolution.isNone

def insertInvestigation (id : UUID) (inv : Investigation) : Db Investigation :=
  sql (fun s =>
    let row := { inv with id := id }
    .guarded
      [(!storableOption inv.finalResolution, .other),
       (!completionCheck inv.status inv.completedAt inv.finalResolution,
        .pg .checkViolation "chk_investigations_completion"),
       (s.investigations.any (fun i => i.id = id), .pg .uniqueViolation "investigations_pkey"),
       (!s.alerts.any (fun a => a.id = inv.alertID),
        .pg .foreignKeyViolation "investigations_alert_id_fkey"),
       (!s.versions.any (fun v => v.id = inv.playbookVersionID),
        .pg .foreignKeyViolation "investigations_playbook_version_id_fkey"),
       (!(s.nodesOf inv.playbookVersionID).any (fun n => n.id = inv.currentNodeID),
        .pg .foreignKeyViolation "fk_investigations_current_node_same_version")]
      ⟨.ok row,
        [(.investigation id, .update), (.alert inv.alertID, .keyShare),
         (.version inv.playbookVersionID, .keyShare), (.node inv.currentNodeID, .keyShare)],
        [.insertInvestigation row]⟩) translated

def selectInvestigation (id : UUID) : Db Investigation :=
  sql (fun s => .row (s.investigationRows id).head?) (notFound "investigation")

/-- `ORDER BY sequence_number` -/
def sortSteps (rows : List StepRow) : List StepRow :=
  rows.insertionSort fun a b => a.sequenceNumber ≤ b.sequenceNumber

def loadSteps (investigationID : UUID) : Db (List Step) :=
  sql (fun s => ⟨scanSteps (sortSteps (s.stepsOf investigationID)), [], []⟩) translated

def lockInvestigation (id : UUID) : Db Investigation :=
  sql (fun s => .lockRow (.investigation id) .update (s.investigationRows id).head?)
    (notFound "investigation")

/-- What a decision sends to the database can be represented there. -/
def storableInput (input : DecisionInput) : Bool :=
  input.actor.type.valid && storableOption input.actor.id && storableOption input.rationale &&
    storableJson (encodeEvidence input.evidence) && storableOption input.idempotencyKey

/-- The same request as the recorded one; evidence compares as `jsonb`. -/
def equivalent (r : StepRow) (input : DecisionInput) : Bool :=
  r.selectedEdgeID = input.edgeID && r.actor.type = input.actor.type &&
    r.actor.id = input.actor.id && r.rationale = input.rationale &&
    r.evidence = (encodeEvidence input.evidence).map Json.jsonb

def findStepByIdempotencyKey (investigationID : UUID) (input : DecisionInput) (key : String) :
    Db (Option Step) :=
  sql (fun s =>
    .guarded [(!storableInput input, .other)]
      (match (s.stepsOf investigationID).find? (fun r => r.idempotencyKey = some key) with
      | none => .read none
      | some r =>
        if equivalent r input then ⟨(scanStep r).map some, [], []⟩
        else .fail (.app (.new .idempotencyKeyReused
          "idempotency key %q was already used on this investigation with a different request"
          [.str key]))))
    translated

/-- The edge with its target, both of the given version. -/
def loadEdgeWithDestination (versionID edgeID : UUID) : Db (Edge × Node) :=
  sql (fun s =>
    match (s.edgesOf versionID).find? (fun e => e.id = edgeID) with
    | none => .fail .noRows
    | some e => .row (((s.nodesOf versionID).find? (fun n => n.id = e.toNodeID)).map fun n => (e, n)))
    fun err => match err with
      | .noRows => .app (.new .invalidTransition
          "edge %s is not part of this investigation's playbook version" [.uuid edgeID])
      | err => translated err

/-- The step that takes `edge` from where `inv` stands. -/
def newStep (stepID : UUID) (now : Time) (inv : Investigation) (input : DecisionInput)
    (edge : Edge) (number : Nat) : StepRow where
  id := stepID
  investigationID := inv.id
  playbookVersionID := inv.playbookVersionID
  sequenceNumber := number
  nodeID := inv.currentNodeID
  selectedEdgeID := edge.id
  actor := input.actor
  rationale := input.rationale
  evidence := (encodeEvidence input.evidence).map Json.jsonb
  idempotencyKey := input.idempotencyKey
  createdAt := now

/-- The sequence number is `COALESCE(MAX(sequence_number), 0) + 1`. -/
def insertStep (stepID : UUID) (now : Time) (inv : Investigation) (input : DecisionInput)
    (edge : Edge) : Db Step :=
  sql (fun s =>
    let number := ((s.stepsOf inv.id).map StepRow.sequenceNumber).foldl max 0 + 1
    let row := newStep stepID now inv input edge number
    .guarded
      [(!storableInput input || !int4 number, .other),
       (s.steps.any (fun r => r.id = stepID), .pg .uniqueViolation "investigation_steps_pkey"),
       ((s.stepsOf inv.id).any (fun r => r.sequenceNumber = number),
        .pg .uniqueViolation "investigation_steps_investigation_id_sequence_number_key"),
       (input.idempotencyKey.any fun key =>
          (s.stepsOf inv.id).any fun r => r.idempotencyKey = some key,
        .pg .uniqueViolation "uq_investigation_steps_idempotency"),
       ((s.versionRows inv.playbookVersionID).isEmpty,
        .pg .foreignKeyViolation "investigation_steps_playbook_version_id_fkey"),
       (!(s.investigationRows inv.id).any (fun i => i.playbookVersionID = inv.playbookVersionID),
        .pg .foreignKeyViolation "fk_investigation_steps_investigation_same_version"),
       (!(s.nodesOf inv.playbookVersionID).any (fun n => n.id = inv.currentNodeID),
        .pg .foreignKeyViolation "fk_investigation_steps_node_same_version"),
       (!(s.edgesOf inv.playbookVersionID).any (fun e => e.id = edge.id),
        .pg .foreignKeyViolation "fk_investigation_steps_edge_same_version")]
      ⟨scanStep row,
        [(.step stepID, .update), (.stepSequence inv.id number, .update),
         (.version inv.playbookVersionID, .keyShare), (.investigation inv.id, .keyShare),
         (.node inv.currentNodeID, .keyShare), (.edge edge.id, .keyShare)] ++
          input.idempotencyKey.toList.map fun key => (.stepKey inv.id key, .update),
        [.insertStep row]⟩) translated

/-- `UPDATE investigations SET ... WHERE id = $1 RETURNING ...` -/
def updatedState (next : Investigation) (s : Store) : Answer Investigation :=
  match (s.investigationRows next.id).head? with
  | none => .fail .noRows
  | some i =>
    .guarded
      [(!storableOption next.finalResolution, .other),
       (!completionCheck next.status next.completedAt next.finalResolution,
        .pg .checkViolation "chk_investigations_completion"),
       (!(s.nodesOf i.playbookVersionID).any (fun n => n.id = next.currentNodeID),
        .pg .foreignKeyViolation "fk_investigations_current_node_same_version")]
      ⟨.ok (i.withState next.currentNodeID next.status next.completedAt next.finalResolution),
        [(.investigation next.id, .noKeyUpdate), (.node next.currentNodeID, .keyShare)],
        [.setState next.id next.currentNodeID next.status next.completedAt
          next.finalResolution]⟩

def updateInvestigationState (next : Investigation) : Db Investigation :=
  sql (updatedState next) translated

/-! ## Operations -/

def create (id : UUID) (inv : Investigation) : Svc Investigation :=
  onPool (insertInvestigation id inv)

def getWithStepsBody (id : UUID) : Db (Investigation × List Step) := do
  let inv ← selectInvestigation id
  let steps ← loadSteps id
  return (inv, steps)

def getWithSteps (id : UUID) : Svc (Investigation × List Step) := inSnapshot (getWithStepsBody id)

/-- The step recorded under the key of the request, if it has one. -/
def findRecorded (investigationID : UUID) (input : DecisionInput) : Db (Option Step) :=
  match input.idempotencyKey with
  | none => return none
  | some key => findStepByIdempotencyKey investigationID input key

/-- Take the step from where `inv` stands. `now` is the time of the clock of the process,
`txNow` the one the database records. -/
def advance (stepID : UUID) (now txNow : Time) (inv : Investigation) (input : DecisionInput) :
    Db DecisionResult := do
  let (edge, destination) ← loadEdgeWithDestination inv.playbookVersionID input.edgeID
  match inv.decide edge destination now with
  | .error e => throw (.app e)
  | .ok next =>
    let step ← insertStep stepID txNow inv input edge
    let updated ← updateInvestigationState next
    return ⟨updated, step, false⟩

/-- A retry is recognised first; then a finished investigation; then the edge. -/
def applyDecisionBody (stepID : UUID) (now txNow : Time) (investigationID : UUID)
    (input : DecisionInput) : Db DecisionResult := do
  let inv ← lockInvestigation investigationID
  let recorded ← findRecorded investigationID input
  match recorded with
  | some existing => return ⟨inv, existing, true⟩
  | none =>
    if inv.isCompleted then
      throw (.app (.new .investigationCompleted
        "investigation %s is already completed and cannot be advanced" [.uuid investigationID]))
    else advance stepID now txNow inv input

def applyDecision (stepID : UUID) (now txNow : Time) (investigationID : UUID)
    (input : DecisionInput) : Svc DecisionResult :=
  inTx (applyDecisionBody stepID now txNow investigationID input)

end InvestigationRepository

end Interbellum
