import Interbellum.Frontend.ReportPath
import Interbellum.Guarantees.Views

/-!
# The overlay shows the run

The overlay is put together from two fields of a response. That a node is visited once, and an
edge selected once, holds because the steps of an investigation are a walk through a graph
without cycles.

* `Shown.reproduces`: the overlay of the steps of a view shows the walk.
* `overlay_reproduces`: so do the overlays of reports and of the runner.
-/

namespace Interbellum

open Frontend (PathOverlay buildPathOverlay buildOverlayFromSteps reportOverlay runnerOverlay)
open Http.Response (toStep toPathStep toEdge toNode toDefinition toInvestigationState
  toInvestigationReport)

variable {s : Store}

/-- The overlay shows an investigation that took these steps and stands at `current`. -/
structure Reproduces (overlay : PathOverlay) (steps : List Step) (current : UUID) : Prop where
  visitedNodeIds : overlay.visitedNodeIds = steps.map Step.nodeID ++ [current]
  distinct : overlay.visitedNodeIds.Nodup
  visited : overlay.visited = overlay.visitedNodeIds
  stepAtNode : ∀ m (hm : m < steps.length),
    overlay.stepAtNode.lookup (steps[m].nodeID) = some (m + 1)
  unstamped : overlay.stepAtNode.lookup current = none
  stampedNodes : overlay.stepAtNode.map Prod.fst = steps.map Step.nodeID
  selectedEdgeIds : overlay.selectedEdgeIds = steps.map Step.selectedEdgeID
  selected : overlay.selectedEdgeIds.Nodup
  stepAtEdge : ∀ m (hm : m < steps.length),
    overlay.stepAtEdge.lookup (steps[m].selectedEdgeID) = some (m + 1)
  stampedEdges : overlay.stepAtEdge.map Prod.fst = steps.map Step.selectedEdgeID
  finalNodeId : overlay.finalNodeId = some current

/-- What the overlay reads of a step. -/
def Step.path (step : Step) : Frontend.PathStep :=
  ⟨step.sequenceNumber, step.nodeID, step.selectedEdgeID⟩

variable {i : Investigation} {v : Version} {a : Alert} {n : Node} {steps : List Step}

theorem Shown.numbers (h : Shown s i v a n steps) (hs : Valid s) :
    steps.map Step.sequenceNumber = List.range' 1 steps.length := (h.fits hs).numbers

theorem Shown.nodes_nodup (h : Shown s i v a n steps) (hs : Valid s) :
    (steps.map Step.nodeID ++ [i.currentNodeID]).Nodup := by
  have hnodup := (hs.consistent i h.investigation).visited_nodup hs.toDesign
  have hnodes := map_scanSteps (f := Step.nodeID) (g := StepRow.nodeID)
    (fun r step hr => congrArg Prod.fst (taken_of_scan r step hr).1) h.steps
  rwa [visitedBy_eq, ← hnodes] at hnodup

theorem Shown.edges_nodup (h : Shown s i v a n steps) (hs : Valid s) :
    (steps.map Step.selectedEdgeID).Nodup := by
  have hnodup := (hs.consistent i h.investigation).edges_nodup hs.toDesign
  have hedges := map_scanSteps (f := Step.selectedEdgeID) (g := StepRow.selectedEdgeID)
    (fun r step hr => congrArg Prod.snd (taken_of_scan r step hr).1) h.steps
  rwa [← hedges] at hnodup

/-- The last selected edge leads to the current node, and is found by its id. -/
theorem Shown.last_edge (h : Shown s i v a n steps) (hs : Valid s) {last : Step}
    (hlast : steps.getLast? = some last) :
    ∃ e, ((s.graphOf v).edges.map toEdge).find? (fun e => e.id = last.selectedEdgeID) = some e ∧
      e.toNodeID = i.currentNodeID := by
  obtain ⟨root, -, hwalk⟩ := (h.fits hs).walk
  obtain ⟨e, he, hid, -, hto⟩ := hwalk.last (x := last.taken) (by rw [List.getLast?_map, hlast]; rfl)
  refine ⟨toEdge e, ?_, hto⟩
  have hfind := find?_of_mem (f := Edge.id) (hs.toDesign.edge_ids_nodup v) he
  rw [List.find?_map]
  show ((s.graphOf v).edges.find? fun e => e.id = last.selectedEdgeID).map toEdge = _
  rw [show last.selectedEdgeID = e.id from hid.symm, hfind, Option.map_some]

theorem Shown.path_numbers (h : Shown s i v a n steps) (hs : Valid s) :
    (steps.map Step.path).Pairwise fun x y => x.stepNumber < y.stepNumber := by
  have hsorted : (steps.map Step.sequenceNumber).Pairwise (· < ·) := by
    rw [h.numbers hs]
    exact List.pairwise_lt_range'
  rw [List.pairwise_map] at hsorted ⊢
  exact hsorted

/-- The overlay of the steps of a view, taken in any order. -/
theorem Shown.buildPathOverlay_eq (h : Shown s i v a n steps) (hs : Valid s) (hne : steps ≠ [])
    {path : List Frontend.PathStep} (hpath : path.Perm (steps.map Step.path))
    (root : Option UUID) :
    buildPathOverlay path ((s.graphOf v).edges.map toEdge) root =
      (PathOverlay.along (steps.map Step.path)).endAt i.currentNodeID := by
  refine Frontend.buildPathOverlay_eq root (by simpa using hne) hpath (h.path_numbers hs) ?_ ?_ ?_
  · rw [List.map_map]
    exact (List.nodup_append.mp (h.nodes_nodup hs)).1
  · rw [List.map_map]
    exact h.edges_nodup hs
  · intro last hlast
    rw [List.getLast?_map, Option.map_eq_some_iff] at hlast
    obtain ⟨step, hstep, rfl⟩ := hlast
    exact h.last_edge hs hstep

/-- The overlay that the runner draws is the same one. -/
theorem Shown.buildOverlayFromSteps_eq (h : Shown s i v a n steps) (hs : Valid s) (hne : steps ≠ []) :
    buildOverlayFromSteps (steps.map Step.path) ((s.graphOf v).edges.map toEdge)
        (some i.currentNodeID) =
      (PathOverlay.along (steps.map Step.path)).endAt i.currentNodeID := by
  rw [buildOverlayFromSteps, h.buildPathOverlay_eq hs hne (List.Perm.refl _)]
  exact PathOverlay.endAt_endAt _ _

/-- A stamp is the number of the step. -/
theorem lookup_stamp {f : Step → UUID} (hnodup : (steps.map f).Nodup)
    (hnumbers : steps.map Step.sequenceNumber = List.range' 1 steps.length) {m : ℕ}
    (hm : m < steps.length) :
    (steps.map fun step => (f step, step.sequenceNumber)).lookup (f steps[m]) = some (m + 1) := by
  have hnumber : steps[m].sequenceNumber = m + 1 := by
    have hget : (steps.map Step.sequenceNumber)[m]? = (List.range' 1 steps.length)[m]? := by
      rw [hnumbers]
    simp only [List.getElem?_map, List.getElem?_eq_getElem hm, Option.map_some,
      List.getElem?_range' hm, Option.some.injEq] at hget
    omega
  rw [← hnumber]
  refine Ecma.lookup_of_mem (by rwa [List.map_map]) ?_
  exact List.mem_map.mpr ⟨steps[m], List.getElem_mem hm, rfl⟩

theorem Shown.reproduces (h : Shown s i v a n steps) (hs : Valid s) :
    Reproduces ((PathOverlay.along (steps.map Step.path)).endAt i.currentNodeID) steps
      i.currentNodeID := by
  have hnodes := h.nodes_nodup hs
  have hfinal : i.currentNodeID ∉ (steps.map Step.path).map Frontend.PathStep.nodeId := by
    rw [List.map_map]
    exact fun hmem => (List.nodup_append.mp hnodes).2.2 _ hmem _ (List.mem_singleton_self _) rfl
  have hvisited : (steps.map Step.path).map Frontend.PathStep.nodeId = steps.map Step.nodeID :=
    List.map_map
  have hstamps : ((steps.map Step.path).map fun step => (step.nodeId, step.stepNumber)) =
      steps.map fun step => (step.nodeID, step.sequenceNumber) := List.map_map
  have hselected : (steps.map Step.path).map Frontend.PathStep.selectedEdgeId =
      steps.map Step.selectedEdgeID := List.map_map
  have hnumbered : ((steps.map Step.path).map fun step => (step.selectedEdgeId, step.stepNumber)) =
      steps.map fun step => (step.selectedEdgeID, step.sequenceNumber) := List.map_map
  rw [PathOverlay.endAt_along hfinal]
  simp only [PathOverlay.along, hvisited, hstamps, hselected, hnumbered]
  exact {
    visitedNodeIds := rfl
    distinct := hnodes
    visited := rfl
    stepAtNode := fun m hm => lookup_stamp (List.nodup_append.mp hnodes).1 (h.numbers hs) hm
    unstamped := by
      rw [hvisited] at hfinal
      have hnone : Ecma.has i.currentNodeID (steps.map fun step =>
          (step.nodeID, step.sequenceNumber)) = false := Ecma.has_eq_false (by rwa [List.map_map])
      simpa [Ecma.has] using hnone
    stampedNodes := List.map_map
    selectedEdgeIds := rfl
    selected := h.edges_nodup hs
    stepAtEdge := fun m hm => lookup_stamp (h.edges_nodup hs) (h.numbers hs) hm
    stampedEdges := List.map_map
    finalNodeId := rfl }

/-- The report with its path in another order. -/
def reordered (report : Http.Response.InvestigationReport) (path : List Http.Response.PathStep) :
    Http.Response.InvestigationReport :=
  { report with path := path }

/-- The overlay of a report shows its run. Without steps only a completed investigation has
something to show, its root. -/
structure ReportDrawn (report : InvestigationService.Report) : Prop where
  drawn : report.steps ≠ [] → ∀ path, path.Perm (toInvestigationReport report).path →
    Reproduces (reportOverlay (reordered (toInvestigationReport report) path)) report.steps
      report.investigation.currentNodeID
  plain : report.steps ≠ [] → ∀ path, path.Perm (toInvestigationReport report).path →
    buildPathOverlay (path.map Frontend.ofPathStep)
        (toInvestigationReport report).playbookVersion.edges none =
      reportOverlay (reordered (toInvestigationReport report) path)
  runner : report.steps ≠ [] → ∀ path, path.Perm (toInvestigationReport report).path →
    buildOverlayFromSteps ((report.steps.map toStep).map Frontend.ofStep)
        (toInvestigationReport report).playbookVersion.edges
        (some report.investigation.currentNodeID) =
      reportOverlay (reordered (toInvestigationReport report) path)
  walk : ∃ root, report.definition.version.rootNodeID = some root ∧
    Walk report.definition.graph.edges root (report.steps.map Step.taken)
      report.investigation.currentNodeID
  final : ∃ final ∈ (toInvestigationReport report).playbookVersion.nodes,
    final.id = report.investigation.currentNodeID ∧
      (report.investigation.status = .completed →
        final.terminalResolution = report.investigation.finalResolution)
  waiting : report.steps = [] → report.investigation.status = .inProgress →
    reportOverlay (toInvestigationReport report) = .empty
  rootOnly : report.steps = [] → report.investigation.status = .completed →
    ∃ root, report.definition.version.rootNodeID = some root ∧
      reportOverlay (toInvestigationReport report) = ⟨[root], [root], [], [], [], some root⟩

theorem Shown.reportOverlay_eq (h : Shown s i v a n steps) (hs : Valid s) (hne : steps ≠ [])
    {path : List Http.Response.PathStep} (hpath : path.Perm (steps.map toPathStep)) :
    reportOverlay (reordered (toInvestigationReport (reportView s i v a n steps)) path) =
      (PathOverlay.along (steps.map Step.path)).endAt i.currentNodeID := by
  refine h.buildPathOverlay_eq hs hne ?_ _
  have hmap := hpath.map Frontend.ofPathStep
  rwa [List.map_map] at hmap

theorem Shown.reportDrawn (h : Shown s i v a n steps) (hs : Valid s) :
    ReportDrawn (reportView s i v a n steps) := by
  obtain ⟨root, hroot, hwalk⟩ := (h.fits hs).walk
  exact {
    drawn := fun hne path hpath => by
      rw [h.reportOverlay_eq hs hne hpath]
      exact h.reproduces hs
    plain := fun hne path hpath => by
      rw [h.reportOverlay_eq hs hne hpath]
      refine h.buildPathOverlay_eq hs hne ?_ none
      have hmap := hpath.map Frontend.ofPathStep
      rwa [show (toInvestigationReport (reportView s i v a n steps)).path = steps.map toPathStep
        from rfl, List.map_map] at hmap
    runner := fun hne path hpath => by
      rw [h.reportOverlay_eq hs hne hpath, ← h.buildOverlayFromSteps_eq hs hne]
      show buildOverlayFromSteps ((steps.map toStep).map Frontend.ofStep) _ _ = _
      rw [List.map_map]
      rfl
    walk := ⟨root, hroot, hwalk⟩
    final := by
      refine ⟨toNode n, List.mem_map_of_mem (h.fits hs).node, h.node_id, fun hcompleted => ?_⟩
      exact ((h.fits hs).resolution hcompleted).symm
    waiting := by
      rintro (rfl : steps = []) (hstatus : i.status = .inProgress)
      show buildPathOverlay [] _ (if i.status.text = "completed" then _ else none) = _
      rw [hstatus]
      rfl
    rootOnly := by
      rintro (rfl : steps = []) (hstatus : i.status = .completed)
      refine ⟨root, hroot, ?_⟩
      show buildPathOverlay [] _ (if i.status.text = "completed" then v.rootNodeID else none) = _
      rw [hstatus, hroot]
      rfl }

variable {ι : Type} [DecidableEq ι] {ops : ι → Operation} {trace : List (ι × Txn.Event)}
  {sys : Server ι}

/-- Every report that a client gets is drawn as the run was, whatever the order of its path, and
so is every state of an investigation that has taken a step. -/
theorem overlay_reproduces (h : Reachable s) (hrun : Txn.Run (clients s ops) trace sys) {k : ι}
    {r : Reply} (hanswer : sys.session k = .idle (.ret (.ok r))) :
    (∀ id report, ops k = .report id → r = .report report → ReportDrawn report) ∧
    ∀ id state, (ops k = .getInvestigation id ∨ ∃ a, ops k = .submit a ∧ a.investigationID = id) →
      r = .state state → state.steps ≠ [] →
      ∃ v ∈ sys.store.versions, v.id = state.investigation.playbookVersionID ∧
        Reproduces (runnerOverlay (toInvestigationState state)
          (toDefinition ⟨v, sys.store.graphOf v⟩)) state.steps state.currentNode.id := by
  obtain ⟨calls, htracked⟩ := h.tracked hrun
  have hr := htracked.answer hanswer
  constructor
  · rintro id report hop rfl
    rw [hop] at hr
    obtain ⟨r', hviewed, hr'⟩ := hr
    cases r' with
    | error e => cases hr'
    | ok x =>
      obtain rfl : report = x := by simpa [Except.map] using hr'
      obtain ⟨t, i, v, a, n, steps, ht, -, -, hshown, rfl⟩ := hviewed.shown
      exact hshown.reportDrawn ht
  · have hstate : ∀ {t id state}, Viewed t id stateView (.ok state) sys.store → state.steps ≠ [] →
        ∃ v ∈ sys.store.versions, v.id = state.investigation.playbookVersionID ∧
          Reproduces (runnerOverlay (toInvestigationState state)
            (toDefinition ⟨v, sys.store.graphOf v⟩)) state.steps state.currentNode.id := by
      intro t id state hviewed hne
      obtain ⟨t, i, v, a, n, steps, ht, htu, -, hshown, rfl⟩ := hviewed.shown
      obtain ⟨hv, hvid, -⟩ := hshown.bound.evolves htu
      refine ⟨v, hv, hvid, ?_⟩
      show Reproduces (buildOverlayFromSteps ((steps.map toStep).map Frontend.ofStep)
        ((sys.store.graphOf v).edges.map toEdge) (some n.id)) steps n.id
      rw [hshown.bound.graphOf htu, List.map_map, hshown.node_id]
      have heq := hshown.buildOverlayFromSteps_eq ht hne
      rw [show steps.map (Frontend.ofStep ∘ toStep) = steps.map Step.path from rfl, heq]
      exact hshown.reproduces ht
    rintro id state (hop | ⟨a, hop, rfl⟩) rfl hne
    · rw [hop] at hr
      obtain ⟨r', hviewed, hr'⟩ := hr
      cases r' with
      | error e => cases hr'
      | ok x =>
        obtain rfl : state = x := by simpa [Except.map] using hr'
        exact hstate hviewed hne
    · rw [hop] at hr
      obtain ⟨state', hr', t, d, ws, -, -, -, -, hviewed⟩ := hr
      obtain rfl := Reply.state.inj hr'
      exact hstate hviewed hne

/-- A client that takes the second decision, and one that reads the report. -/
def Triage.submitsAndReports : Bool → Operation
  | false => .submit (Triage.attempt 6 22 none)
  | true => .report 4

/-- The path of the report has two steps, and is drawn from the last to the first. The runner draws
the same two steps. -/
theorem overlay_reproduces_triage : ∃ (sys : Server Bool) (report : InvestigationService.Report)
    (state : InvestigationService.State),
    sys.session true = .idle (.ret (.ok (.report report))) ∧
    sys.session false = .idle (.ret (.ok (.state state))) ∧
    (report.steps.map fun step => (step.sequenceNumber, step.nodeID)) = [(1, 10), (2, 11)] ∧
    Reproduces (reportOverlay (reordered (toInvestigationReport report)
      (toInvestigationReport report).path.reverse)) report.steps 12 ∧
    ∃ v ∈ sys.store.versions, v.id = 2 ∧
      Reproduces (runnerOverlay (toInvestigationState state)
        (toDefinition ⟨v, sys.store.graphOf v⟩)) report.steps 12 := by
  let steps : List Step := [⟨5, 4, 2, 1, 10, 20, ⟨.human, none⟩, none, [], none, 11⟩,
    ⟨6, 4, 2, 2, 11, 22, ⟨.human, none⟩, none, [], none, 11⟩]
  let i : Investigation := ⟨4, 3, 2, .completed, 12, 10, some 11, some "resolved"⟩
  let a : Alert := ⟨3, none, "ddos", "flood", "", .obj [], 9, 9⟩
  let v : Version := ⟨2, 1, 1, .published, some 10, 7, some 8⟩
  let report : InvestigationService.Report := ⟨i, a, ⟨v, Triage.completed.graphOf v⟩, steps⟩
  let state : InvestigationService.State :=
    ⟨i, a, ⟨12, .terminal, "Done", "", some "resolved", none⟩, [], steps⟩
  have hreachable := Triage.reachable_started.after [.decide (Triage.attempt 5 20 none)]
  obtain ⟨trace, sys, hrun, hreported, hsubmitted⟩ : ∃ trace sys,
      Txn.Run (clients (after [.decide (Triage.attempt 5 20 none)] Triage.started)
        Triage.submitsAndReports) trace sys ∧
      (sys.session true).answer? = some (.ok (.report report)) ∧
      (sys.session false).answer? = some (.ok (.state state)) :=
    ⟨_, _, Txn.run_follow (List.replicate 12 false ++ List.replicate 12 true ++
      List.replicate 12 false) _, by decide +kernel, by decide +kernel⟩
  have hreported := Txn.Session.eq_of_answer? hreported
  have hsubmitted := Txn.Session.eq_of_answer? hsubmitted
  obtain ⟨hdrawn, -⟩ := overlay_reproduces hreachable hrun hreported
  obtain ⟨-, hrunner⟩ := overlay_reproduces hreachable hrun hsubmitted
  have hreport := (hdrawn 4 report rfl rfl).drawn (List.cons_ne_nil _ _) _ (List.reverse_perm _)
  exact ⟨sys, report, state, hreported, hsubmitted, rfl, hreport,
    hrunner 4 state (.inr ⟨_, rfl, rfl⟩) rfl (List.cons_ne_nil _ _)⟩

end Interbellum
