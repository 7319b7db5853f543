import Interbellum.Guarantees.Choices

/-!
# Views fit together

Only the investigation and its steps are read in one snapshot; the alert, the version, its
nodes and its edges are read one by one afterwards. They fit together all the same, since
the version is published and what the snapshot has seen is never taken back.

* `view_consistent`: what a client is shown of an investigation fits together.
-/

namespace Interbellum

open InvestigationService
open Txn (System)

variable {s : Store}

/-- Where a step was taken, and along which edge. -/
def Step.taken (step : Step) : UUID × UUID := (step.nodeID, step.selectedEdgeID)

/-- The investigation `i` and its steps go together with each other, the published version
`v` and its graph `g`, and the node `n` that the investigation is at. -/
structure Fits (v : Version) (g : Graph) (i : Investigation) (steps : List Step) (n : Node) :
    Prop where
  version : i.playbookVersionID = v.id
  published : v.status = .published
  valid : g.validate = []
  root : g.rootNodeID = v.rootNodeID
  numbers : steps.map Step.sequenceNumber = List.range' 1 steps.length
  walk : ∃ root, v.rootNodeID = some root ∧
    Walk g.edges root (steps.map Step.taken) i.currentNodeID
  node : n ∈ g.nodes
  node_id : n.id = i.currentNodeID
  completed : i.status = .completed ↔ n.kind = .terminal
  resolution : i.status = .completed → i.finalResolution = n.terminalResolution

/-- The choices are the edges that leave the current node. -/
structure Offers (g : Graph) (state : State) : Prop where
  leaving : state.availableChoices.Perm
    (g.edges.filter fun e => e.fromNodeID = state.currentNode.id)
  completed : state.investigation.status = .completed → state.availableChoices = []

theorem taken_of_scan (r : StepRow) (step : Step) (h : scanStep r = .ok step) :
    step.taken = r.taken ∧ step.sequenceNumber = r.sequenceNumber := by
  unfold scanStep at h
  cases hevidence : decodeEvidence r.evidence with
  | error e => simp [hevidence, bind, Except.bind] at h
  | ok items =>
    rw [hevidence] at h
    rw [← Except.ok.inj h]
    exact ⟨rfl, rfl⟩

variable {i : Investigation} {v : Version} {a : Alert} {n : Node} {steps : List Step}

theorem Shown.fits (h : Shown s i v a n steps) (hs : Valid s) :
    Fits v (s.graphOf v) i steps n := by
  have hconsistent := hs.consistent i h.investigation
  obtain ⟨w, root, hbound, hroot, hwalk⟩ := hconsistent.walk
  obtain rfl : w = v := List.inj_on_of_nodup_map hs.version_ids hbound.1 h.bound.1
    (hbound.2.1.trans h.bound.2.1.symm)
  have hnode := h.node
  rw [h.bound.2.1] at hnode
  have houtcome := hconsistent.outcome n hnode h.node_id
  have htaken := map_scanSteps (fun r step hr => (taken_of_scan r step hr).1) h.steps
  have hnumbers := map_scanSteps (fun r step hr => (taken_of_scan r step hr).2) h.steps
  have hlength := congrArg List.length hnumbers
  simp only [List.length_map] at hlength
  exact {
    version := h.bound.2.1.symm
    published := h.bound.2.2.1
    valid := hs.published w h.bound.1 h.bound.2.2.1
    root := rfl
    numbers := by rw [hnumbers, hconsistent.numbers, hlength]
    walk := by
      refine ⟨root, hroot, ?_⟩
      rw [htaken]
      refine hwalk.mono ?_
      rintro id x y ⟨e, he, hjoins⟩
      exact ⟨e, mem_graphOf_edges.mpr he, hjoins⟩
    node := mem_graphOf_nodes.mpr h.node
    node_id := h.node_id
    completed := by
      rcases houtcome with ⟨hk, hstatus, -⟩ | ⟨hk, hstatus, -⟩ <;> simp [hk, hstatus]
    resolution := by
      intro hcompleted
      rcases houtcome with ⟨-, -, -, hresolution⟩ | ⟨-, hstatus, -⟩
      · exact hresolution
      · rw [hcompleted] at hstatus
        cases hstatus }

theorem Fits.offers {g : Graph} (h : Fits v g i steps n) :
    Offers g ⟨i, a, n, choicesFor g i, steps⟩ := by
  have hleaving : (g.outgoingEdges i.currentNodeID).Perm
      (g.edges.filter fun e => e.fromNodeID = n.id) := by
    rw [h.node_id]
    exact Graph.sortEdges_perm _
  by_cases hcompleted : i.status = .completed
  · have hnone : choicesFor g i = [] := by simp [choicesFor, Investigation.isCompleted, hcompleted]
    refine ⟨?_, fun _ => hnone⟩
    have hterminal := (Graph.validate_nil_iff_publishable.mp h.valid).terminal n h.node
      (h.completed.mp hcompleted)
    show (choicesFor g i).Perm _
    rw [hnone, List.filter_eq_nil_iff.mpr (by simpa using hterminal.1)]
  · have hsome : choicesFor g i = g.outgoingEdges i.currentNodeID := by
      simp [choicesFor, Investigation.isCompleted, hcompleted]
    refine ⟨?_, fun h' => absurd h' hcompleted⟩
    show (choicesFor g i).Perm _
    rw [hsome]
    exact hleaving

/-- A view that was answered fits together in the state it is answered in. -/
theorem Viewed.fits {β : Type} {id : UUID}
    {view : Store → Investigation → Version → Alert → Node → List Step → β} {x : β} {u : Store}
    (h : Viewed s id view (.ok x) u) : ∃ t i v a n steps, i.id = id ∧ a.id = i.alertID ∧
      v ∈ u.versions ∧ Fits v (u.graphOf v) i steps n ∧ t.graphOf v = u.graphOf v ∧
        x = view t i v a n steps := by
  obtain ⟨t, i, v, a, n, steps, ht, htu, hid, hshown, hview⟩ := h.shown
  have hgraph := hshown.bound.graphOf htu
  refine ⟨t, i, v, a, n, steps, hid, hshown.alert_id, (hshown.bound.evolves htu).1, ?_,
    hgraph.symm, hview⟩
  rw [hgraph]
  exact hshown.fits ht

/-! ## Submissions -/

/-- A submission that is not rejected at once decides, in one transaction, and then reads. -/
theorem submit_call (a : Attempt) : (Operation.submit a).call =
    match validateDecision a.input with
    | .error e => .ret (.error e)
    | .ok () => .tx a.body.run fun r =>
      match r.mapError translate with
      | .ok _ => reply .state (InvestigationService.get a.investigationID)
      | .error e => .ret (.error e) := by
  show reply .state a.submit = _
  unfold Attempt.submit submitDecision
  cases validateDecision a.input with
  | error e => rfl
  | ok =>
    show Txn.Call.tx a.body.run _ = _
    congr 1
    ext r
    cases r <;> rfl

theorem act_submit {c : Client} {s' : Store} {a : Attempt}
    (hact : (Operation.submit a).call.act s = some (c, s')) :
    ∃ r, a.call.run.run s = (r, s') ∧ c = match r with
      | .ok _ => reply .state (InvestigationService.get a.investigationID)
      | .error e => .ret (.error e) := by
  rw [submit_call] at hact
  cases hvalid : validateDecision a.input with
  | error e => simp [hvalid, Txn.Call.act] at hact
  | ok =>
    rw [hvalid] at hact
    obtain ⟨rfl, rfl⟩ := act_inTx (fun r : Except AppError DecisionResult => match r with
      | .ok _ => reply .state (InvestigationService.get a.investigationID)
      | .error e => .ret (.error e)) hact
    exact ⟨_, rfl, rfl⟩

variable {ι : Type} [DecidableEq ι] {ops : ι → Operation} {trace : List (ι × Txn.Event)}
  {sys : Server ι}

/-- A submission that answers a state has decided at one of its steps, and shows the step it
recorded or found. -/
theorem submitted_step (h : Reachable s) (hrun : Txn.Run (clients s ops) trace sys) {k : ι}
    {a : Attempt} (hop : ops k = .submit a) {state : State}
    (hanswer : sys.session k = .idle (.ret (.ok (.state state)))) :
    ∃ event before after d, Txn.Around k event (clients s ops) trace sys before after ∧
      a.call.run.run before.store = (.ok d, after.store) ∧ d.step ∈ state.steps := by
  obtain ⟨calls, htracked, hmoved⟩ := (tracked_clients h.valid ops).acts hrun k
  have hcall := htracked.call_of_idle hanswer
  rw [hop] at hmoved
  rcases hmoved with hstays | ⟨event, before, after, calls₂, haround, hact, htracked₂⟩
  · -- a submission that is not rejected at once begins with a transaction
    rw [hcall] at hstays
    rw [submit_call] at hstays
    cases hvalid : validateDecision a.input <;> simp [hvalid] at hstays
  · obtain ⟨t, t', rfl, hbefore, hstep, hafter⟩ := id haround
    have hs : Valid before.store := (h.tracked hbefore).choose_spec.inv
    obtain ⟨r, hr, hnext⟩ := act_submit hact
    rcases a.run_cases hs with ⟨d, ws, haccepts, hdecided⟩ | ⟨e, -, hdecided⟩
    · rw [hdecided] at hr
      obtain ⟨rfl, hstore⟩ := Prod.mk.inj hr
      refine ⟨event, before, after, d, haround, hdecided.trans (by rw [hstore]), ?_⟩
      have hget := get_keeps (G := fun _ _ => True) htracked₂.inv (fun _ => trivial)
        a.investigationID
      have hkeeps : (reply Reply.state (InvestigationService.get a.investigationID)).Keeps rules
          (fun _ _ => True) (fun r u => ∃ r', Viewed after.store a.investigationID stateView r' u ∧
            r = r'.map .state) after.store :=
        keeps_reply hget fun r _ hr => ⟨r, hr, rfl⟩
      simp only at hnext
      rw [← hnext] at hkeeps
      obtain ⟨⟨calls₃, hlinked⟩, -⟩ := (htracked₂.retarget hkeeps).run hafter
      have hviewed := hlinked.answer hanswer
      rw [Function.update_self] at hviewed
      obtain ⟨r', ⟨x, hx, hax, -, hview⟩, hr'⟩ := hviewed
      obtain ⟨row, hrow, hscan⟩ := haccepts.recorded
      rw [hstore] at hrow
      rcases hview with ⟨-, rfl⟩ | ⟨i, v, al, n, steps, hid, hshown, rfl⟩
      · cases hr'
      · obtain rfl : state = stateView x i v al n steps := by
          simpa [Except.map] using hr'
        have hmem := (hax.steps a.investigationID).subset hrow
        rw [← hid] at hmem
        exact mem_scanSteps hshown.steps hmem hscan
    · rw [hdecided] at hr
      obtain ⟨rfl, hstore⟩ := Prod.mk.inj hr
      have hkeeps : (calls₂ k).Keeps rules (fun _ _ => True)
          (fun r _ => r = .error (translate e)) after.store := by
        rw [hnext]
        exact fun _ _ _ => rfl
      obtain ⟨⟨calls₃, hlinked⟩, -⟩ := (htracked₂.retarget hkeeps).run hafter
      have hr' := hlinked.answer hanswer
      rw [Function.update_self] at hr'
      cases hr'

/-- What `Get`, `SubmitDecision` and `Report` answer, although their reads are interleaved with
the commits of others: the published version the investigation is bound to, steps that are a
walk through its graph from the root to the current node, the choices that leave this node,
and its resolution once it is terminal. `SubmitDecision` shows the step it recorded or found
at the moment it decided. -/
theorem view_consistent (h : Reachable s) (hrun : Txn.Run (clients s ops) trace sys) {k : ι}
    {r : Reply} (hanswer : sys.session k = .idle (.ret (.ok r))) :
    (∀ id state, (ops k = .getInvestigation id ∨ ∃ a, ops k = .submit a ∧ a.investigationID = id) →
      r = .state state → state.investigation.id = id ∧
      state.alert.id = state.investigation.alertID ∧ ∃ v ∈ sys.store.versions,
        Fits v (sys.store.graphOf v) state.investigation state.steps state.currentNode ∧
          Offers (sys.store.graphOf v) state) ∧
    (∀ id report, ops k = .report id → r = .report report → report.investigation.id = id ∧
      report.alert.id = report.investigation.alertID ∧
      report.definition.version ∈ sys.store.versions ∧
      report.definition.graph = sys.store.graphOf report.definition.version ∧
      ∃ n, Fits report.definition.version report.definition.graph report.investigation
        report.steps n) ∧
    ∀ a state, ops k = .submit a → r = .state state → ∃ event before after d,
      Txn.Around k event (clients s ops) trace sys before after ∧
        a.call.run.run before.store = (.ok d, after.store) ∧ d.step ∈ state.steps := by
  obtain ⟨calls, htracked⟩ := h.tracked hrun
  have hr := htracked.answer hanswer
  have hstate : ∀ {t id state}, Viewed t id stateView (.ok state) sys.store →
      state.investigation.id = id ∧ state.alert.id = state.investigation.alertID ∧
      ∃ v ∈ sys.store.versions,
        Fits v (sys.store.graphOf v) state.investigation state.steps state.currentNode ∧
          Offers (sys.store.graphOf v) state := by
    intro t id state hviewed
    obtain ⟨t, i, v, a, n, steps, hid, halert, hv, hfits, hgraph, rfl⟩ := hviewed.fits
    refine ⟨hid, halert, v, hv, hfits, ?_⟩
    rw [stateView, hgraph]
    exact hfits.offers
  refine ⟨?_, ?_, ?_⟩
  · rintro id state (hop | ⟨a, hop, rfl⟩) rfl
    · rw [hop] at hr
      obtain ⟨r', hviewed, hr'⟩ := hr
      cases r' with
      | error e => cases hr'
      | ok x =>
        obtain rfl : state = x := by simpa [Except.map] using hr'
        exact hstate hviewed
    · rw [hop] at hr
      obtain ⟨state', hr', t, d, ws, -, -, -, -, hviewed⟩ := hr
      obtain rfl := Reply.state.inj hr'
      exact hstate hviewed
  · rintro id report hop rfl
    rw [hop] at hr
    obtain ⟨r', hviewed, hr'⟩ := hr
    cases r' with
    | error e => cases hr'
    | ok x =>
      obtain rfl : report = x := by simpa [Except.map] using hr'
      obtain ⟨t, i, v, a, n, steps, hid, halert, hv, hfits, hgraph, rfl⟩ := hviewed.fits
      refine ⟨hid, halert, hv, hgraph, n, ?_⟩
      rw [reportView, hgraph]
      exact hfits
  · rintro a state hop rfl
    exact submitted_step h hrun hop hanswer

/-- One client looks at the investigation, while another one completes it. -/
def Triage.looksAndSubmits : Bool → Operation
  | false => .getInvestigation 4
  | true => .submit (Triage.attempt 5 21 none)

/-- The decision is committed after the snapshot was taken, before the rest is read: what is shown
is the state before it. The one who decides is shown its step, and no choices. -/
theorem view_consistent_triage : ∃ (sys : Server Bool) (state state' : InvestigationService.State),
    sys.session false = .idle (.ret (.ok (.state state))) ∧
    sys.session true = .idle (.ret (.ok (.state state'))) ∧
    state.investigation.status = .inProgress ∧ state'.investigation.status = .completed ∧
    (∃ v ∈ sys.store.versions,
      Fits v (sys.store.graphOf v) state.investigation state.steps state.currentNode ∧
        Offers (sys.store.graphOf v) state) ∧
    (∃ v ∈ sys.store.versions,
      Fits v (sys.store.graphOf v) state'.investigation state'.steps state'.currentNode ∧
        Offers (sys.store.graphOf v) state') ∧
    ∃ step ∈ state'.steps, step.id = 5 := by
  let state : InvestigationService.State := ⟨⟨4, 3, 2, .inProgress, 10, 10, none, none⟩,
    ⟨3, none, "ddos", "flood", "", .obj [], 9, 9⟩, ⟨10, .decision, "Is it real?", "", none, none⟩,
    [⟨20, 10, 11, "yes", none, 0⟩, ⟨21, 10, 12, "no", none, 1⟩], []⟩
  let state' : InvestigationService.State :=
    ⟨⟨4, 3, 2, .completed, 12, 10, some 11, some "resolved"⟩,
      ⟨3, none, "ddos", "flood", "", .obj [], 9, 9⟩,
      ⟨12, .terminal, "Done", "", some "resolved", none⟩, [],
      [⟨5, 4, 2, 1, 10, 21, ⟨.human, none⟩, none, [], none, 11⟩]⟩
  obtain ⟨trace, sys, hrun, hlooked, hsubmitted⟩ : ∃ trace sys,
      Txn.Run (clients Triage.started Triage.looksAndSubmits) trace sys ∧
      (sys.session false).answer? = some (.ok (.state state)) ∧
      (sys.session true).answer? = some (.ok (.state state')) :=
    ⟨_, _, Txn.run_follow (List.replicate 2 false ++ List.replicate 20 true ++
      List.replicate 12 false) _, by decide +kernel, by decide +kernel⟩
  have hlooked := Txn.Session.eq_of_answer? hlooked
  have hsubmitted := Txn.Session.eq_of_answer? hsubmitted
  obtain ⟨hview, -, -⟩ := view_consistent Triage.reachable_started hrun hlooked
  obtain ⟨hview', -, hstep⟩ := view_consistent Triage.reachable_started hrun hsubmitted
  obtain ⟨-, -, v, hv, hfits, hoffers⟩ := hview 4 state (.inl rfl) rfl
  obtain ⟨-, -, v', hv', hfits', hoffers'⟩ := hview' 4 state' (.inr ⟨_, rfl, rfl⟩) rfl
  obtain ⟨-, -, -, d, -, -, hd⟩ := hstep _ state' rfl rfl
  refine ⟨sys, state, state', hlooked, hsubmitted, rfl, rfl, ⟨v, hv, hfits, hoffers⟩,
    ⟨v', hv', hfits', hoffers'⟩, d.step, hd, ?_⟩
  rw [List.mem_singleton.mp hd]

end Interbellum
