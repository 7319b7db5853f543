import Interbellum.Ecma.Collections
import Interbellum.Http.Investigation

/-!
# The overlay of a path

The server returns the graph of a version and the steps of an investigation apart from each
other. The overlay joins them: it says what of the graph is highlighted. Of a step it reads the
number, the node and the selected edge.

* `foldl_take`: steps from new nodes along new edges are appended to the overlay.
* `buildPathOverlay_eq`: the overlay of a path without repetitions.
-/

namespace Interbellum.Frontend

open Http.Response (InvestigationState InvestigationReport PlaybookVersionDefinition)

structure PathStep where
  stepNumber : ℕ
  nodeId : UUID
  selectedEdgeId : UUID

structure PathOverlay where
  visitedNodeIds : List UUID
  visited : List UUID
  stepAtNode : List (UUID × ℕ)
  selectedEdgeIds : List UUID
  stepAtEdge : List (UUID × ℕ)
  finalNodeId : Option UUID

namespace PathOverlay

def empty : PathOverlay := ⟨[], [], [], [], [], none⟩

def visit (nodeId : UUID) (overlay : PathOverlay) : PathOverlay :=
  if nodeId ∈ overlay.visited then overlay
  else
    { overlay with
      visited := Ecma.add nodeId overlay.visited
      visitedNodeIds := overlay.visitedNodeIds ++ [nodeId] }

/-- A node is stamped with the first step from it, an edge with the last step along it. -/
def take (overlay : PathOverlay) (step : PathStep) : PathOverlay :=
  let overlay := overlay.visit step.nodeId
  { overlay with
    stepAtNode :=
      if Ecma.has step.nodeId overlay.stepAtNode then overlay.stepAtNode
      else Ecma.set step.nodeId step.stepNumber overlay.stepAtNode
    selectedEdgeIds := Ecma.add step.selectedEdgeId overlay.selectedEdgeIds
    stepAtEdge := Ecma.set step.selectedEdgeId step.stepNumber overlay.stepAtEdge }

/-- The investigation ends at the node. -/
def endAt (nodeId : UUID) (overlay : PathOverlay) : PathOverlay :=
  { overlay with finalNodeId := some nodeId }.visit nodeId

end PathOverlay

/-- `terminalRootNodeId` is where an investigation without steps ended, if it has ended. -/
def buildPathOverlay (path : List PathStep) (edges : List Http.Response.Edge)
    (terminalRootNodeId : Option UUID) : PathOverlay :=
  if path.isEmpty then
    match terminalRootNodeId with
    | none => .empty
    | some root => PathOverlay.empty.endAt root
  else
    let ordered := path.insertionSort fun a b => a.stepNumber ≤ b.stepNumber
    let overlay := ordered.foldl PathOverlay.take .empty
    match ordered.getLast?.bind fun last => edges.find? fun edge => edge.id = last.selectedEdgeId with
    | none => overlay
    | some lastEdge => overlay.endAt lastEdge.toNodeID

def buildOverlayFromSteps (steps : List PathStep) (edges : List Http.Response.Edge)
    (currentNodeId : Option UUID) : PathOverlay :=
  let overlay := buildPathOverlay steps edges none
  match currentNodeId with
  | none => overlay
  | some nodeId => overlay.endAt nodeId

/-! ## What the screens draw -/

def ofPathStep (step : Http.Response.PathStep) : PathStep :=
  ⟨step.stepNumber, step.nodeID, step.selectedEdgeID⟩

def ofStep (step : Http.Response.Step) : PathStep :=
  ⟨step.sequenceNumber, step.nodeID, step.selectedEdgeID⟩

/-- The overlay of `InvestigationReportScreen`. -/
def reportOverlay (report : InvestigationReport) : PathOverlay :=
  buildPathOverlay (report.path.map ofPathStep) report.playbookVersion.edges
    (if report.investigation.status = "completed" then report.playbookVersion.rootNodeID else none)

/-- The overlay of `InvestigationRunner`. -/
def runnerOverlay (state : InvestigationState) (version : PlaybookVersionDefinition) : PathOverlay :=
  buildOverlayFromSteps (state.steps.map ofStep) version.edges (some state.currentNode.id)

/-! ## Paths without repetitions -/

/-- The overlay of steps that have been taken, before it is known where the last one leads. -/
def PathOverlay.along (steps : List PathStep) : PathOverlay where
  visitedNodeIds := steps.map PathStep.nodeId
  visited := steps.map PathStep.nodeId
  stepAtNode := steps.map fun step => (step.nodeId, step.stepNumber)
  selectedEdgeIds := steps.map PathStep.selectedEdgeId
  stepAtEdge := steps.map fun step => (step.selectedEdgeId, step.stepNumber)
  finalNodeId := none

theorem PathOverlay.take_along {steps : List PathStep} {step : PathStep}
    (hnode : step.nodeId ∉ steps.map PathStep.nodeId)
    (hedge : step.selectedEdgeId ∉ steps.map PathStep.selectedEdgeId) :
    (PathOverlay.along steps).take step = .along (steps ++ [step]) := by
  have hstamped : step.nodeId ∉ (steps.map fun s => (s.nodeId, s.stepNumber)).map Prod.fst := by
    rw [List.map_map]
    exact hnode
  have hnumbered : step.selectedEdgeId ∉
      (steps.map fun s => (s.selectedEdgeId, s.stepNumber)).map Prod.fst := by
    rw [List.map_map]
    exact hedge
  simp only [take, visit, along, if_neg hnode, Ecma.add_of_not_mem hnode,
    Ecma.add_of_not_mem hedge, Ecma.has_eq_false hstamped, Ecma.set_of_not_mem hstamped,
    Ecma.set_of_not_mem hnumbered, List.map_append, List.map_singleton, Bool.false_eq_true,
    if_false]

theorem PathOverlay.foldl_take {steps : List PathStep} (hnodes : (steps.map PathStep.nodeId).Nodup)
    (hedges : (steps.map PathStep.selectedEdgeId).Nodup) :
    steps.foldl take .empty = .along steps := by
  induction steps using List.reverseRecOn with
  | nil => rfl
  | append_singleton steps step ih =>
    rw [List.map_append, List.map_singleton, List.nodup_append] at hnodes hedges
    have hnode : step.nodeId ∉ steps.map PathStep.nodeId := fun h =>
      hnodes.2.2 _ h _ (List.mem_singleton_self _) rfl
    have hedge : step.selectedEdgeId ∉ steps.map PathStep.selectedEdgeId := fun h =>
      hedges.2.2 _ h _ (List.mem_singleton_self _) rfl
    rw [List.foldl_append, ih hnodes.1 hedges.1]
    exact take_along hnode hedge

theorem PathOverlay.endAt_along {steps : List PathStep} {final : UUID}
    (hfinal : final ∉ steps.map PathStep.nodeId) :
    (PathOverlay.along steps).endAt final =
      { PathOverlay.along steps with
        visitedNodeIds := steps.map PathStep.nodeId ++ [final]
        visited := steps.map PathStep.nodeId ++ [final]
        finalNodeId := some final } := by
  simp only [endAt, visit, along, if_neg hfinal, Ecma.add_of_not_mem hfinal]

theorem PathOverlay.endAt_endAt (nodeId : UUID) (overlay : PathOverlay) :
    (overlay.endAt nodeId).endAt nodeId = overlay.endAt nodeId := by
  by_cases hmem : nodeId ∈ overlay.visited
  · simp only [endAt, visit, if_pos hmem]
  · simp [endAt, visit, hmem, Ecma.add_of_not_mem hmem]

variable {steps other : List PathStep} {edges : List Http.Response.Edge} {final : UUID}

/-- The overlay of a path, in any order, that visits no node twice. -/
theorem buildPathOverlay_eq (terminalRootNodeId : Option UUID) (hne : steps ≠ [])
    (hperm : other.Perm steps)
    (hnumbers : steps.Pairwise fun a b => a.stepNumber < b.stepNumber)
    (hnodes : (steps.map PathStep.nodeId).Nodup)
    (hedges : (steps.map PathStep.selectedEdgeId).Nodup)
    (hlast : ∀ last, steps.getLast? = some last →
      ∃ e, edges.find? (fun edge => edge.id = last.selectedEdgeId) = some e ∧ e.toNodeID = final) :
    buildPathOverlay other edges terminalRootNodeId = (PathOverlay.along steps).endAt final := by
  have hother : other.isEmpty = false := by
    rw [List.isEmpty_eq_false_iff]
    exact fun hnil => hne (List.nil_perm.mp (hnil ▸ hperm))
  obtain ⟨e, hfind, rfl⟩ := hlast _ (List.getLast?_eq_some_getLast hne)
  unfold buildPathOverlay
  rw [hother, if_neg Bool.false_ne_true]
  simp only [Ecma.sort_eq hnumbers hperm, PathOverlay.foldl_take hnodes hedges,
    List.getLast?_eq_some_getLast hne, Option.bind_some, hfind]

end Interbellum.Frontend
