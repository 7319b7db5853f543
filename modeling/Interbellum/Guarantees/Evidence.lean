import Interbellum.Guarantees.Replays
import Interbellum.Http.Investigation

/-!
# Evidence as it is shown

The evidence of a decision goes from the body to the domain, to a `jsonb` column, back to the
domain and into a response. It arrives as it was sent.

* `shows_stored`: what is stored of the items of a request is shown as these items.
* `evidence_shown`: every later view of an investigation shows the evidence of its steps.
-/

namespace Interbellum

open InvestigationRepository
open Http (SubmitDecisionRequest Response.fromEvidenceItems Response.toInvestigationState
  Response.toInvestigationReport)

variable {s : Store} {a : Attempt} {row : StepRow} {request : SubmitDecisionRequest}

/-! ## From the column to the response -/

theorem foldl_setEntry {acc members : List (String × Json)}
    (h : ((acc ++ members).map Prod.fst).Nodup) :
    members.foldl (fun entries m => Http.Decoder.setEntry m.1 m.2 entries) acc =
      acc ++ members := by
  induction members generalizing acc with
  | nil => rw [List.foldl_nil, List.append_nil]
  | cons m rest ih =>
    have hfresh : acc.filter (fun e => e.1 ≠ m.1) = acc := by
      refine List.filter_eq_self.mpr fun e he => decide_eq_true fun hname => ?_
      rw [List.map_append, List.nodup_append] at h
      exact h.2.2 e.1 (List.mem_map_of_mem he) m.1 (List.mem_map_of_mem List.mem_cons_self) hname
    have happend : acc ++ m :: rest = acc ++ [m] ++ rest := by simp
    rw [happend] at h ⊢
    rw [List.foldl_cons, Http.Decoder.setEntry, hfresh]
    exact ih h

/-- What is stored of an object is read back whole. -/
theorem toMap_jsonb (members : List (String × Json)) :
    Http.Response.toMap (Json.obj members).jsonb = some (Json.jsonbMembers [] members) := by
  have hnodup := (Json.settled_jsonbMembers members [] Json.settled_nil).nodup
  show some (List.foldl _ [] _) = _
  rw [foldl_setEntry (by rwa [List.nil_append]), List.nil_append]

/-- The item of a response shows the item of a request. Absent data and an empty object are
shown as absent, any other data as an object that is the same value. -/
structure Shows (sent : Http.EvidenceItem) (shown : Http.Response.EvidenceItem) : Prop where
  type : shown.type = sent.type
  summary : shown.summary = sent.summary
  absent : shown.data = none ↔ sent.members = []
  data : ∀ entries, shown.data = some entries → Json.Same (.obj sent.members) (.obj entries)

theorem shows_item (e : Http.EvidenceItem) :
    Shows e ⟨e.type, e.summary, ((Http.marshalObject e.data).map Json.jsonb).bind
      Http.Response.toMap⟩ := by
  rw [Http.marshalObject_jsonb]
  by_cases hempty : e.members = []
  · rw [if_pos hempty]
    exact ⟨rfl, rfl, iff_of_true rfl hempty, fun entries h => nomatch h⟩
  · rw [if_neg hempty, Option.bind_some, toMap_jsonb]
    refine ⟨rfl, rfl, iff_of_false nofun hempty, fun entries h => ?_⟩
    rw [← Option.some.inj h, Json.same_iff]
    exact (Json.jsonb_jsonb (.obj e.members)).symm

/-- What is stored of the items of a request is shown as these items. -/
theorem shows_stored (items : Option (List Http.EvidenceItem)) :
    List.Forall₂ Shows (items.getD [])
      (Response.fromEvidenceItems ((Http.toEvidenceItems items).map EvidenceItem.stored)) := by
  rw [Http.Response.fromEvidenceItems, Http.toEvidenceItems, List.map_map, List.map_map,
    List.forall₂_map_right_iff, List.forall₂_same]
  exact fun e _ => shows_item e

/-! ## From the row to the view -/

theorem evidence_of_scan {step : Step} {items : List EvidenceItem} (h : scanStep row = .ok step)
    (hitems : row.evidence = (encodeEvidence items).map Json.jsonb) :
    step.evidence = items.map EvidenceItem.stored := by
  unfold scanStep at h
  rw [hitems, decodeEvidence_jsonb] at h
  rw [← Except.ok.inj h]

/-- A step that is shown was scanned from a row. -/
theorem row_of_scanSteps {rows : List StepRow} {steps : List Step}
    (h : scanSteps rows = .ok steps) {step : Step} (hstep : step ∈ steps) :
    ∃ r ∈ rows, scanStep r = .ok step := by
  obtain ⟨k, hk, rfl⟩ := List.mem_iff_getElem.mp hstep
  have hall := scanSteps_eq_ok.mp h
  have hlen : k < rows.length := hall.length_eq ▸ hk
  exact ⟨rows[k], List.getElem_mem hlen, (List.forall₂_iff_get.mp hall).2 k hlen hk⟩

/-- The steps of a view, each with its number and its evidence, show the evidence of the request
at step `n`, and only there. -/
structure ShownAt (n : ℕ) (request : SubmitDecisionRequest)
    (steps : List (ℕ × List Http.Response.EvidenceItem)) : Prop where
  shown : ∃ items, (n, items) ∈ steps
  evidence : ∀ items, (n, items) ∈ steps → List.Forall₂ Shows (request.evidence.getD []) items

/-- The row has the evidence of the request. -/
def StepRow.HasEvidence (row : StepRow) (request : SubmitDecisionRequest) : Prop :=
  row.evidence = (encodeEvidence (Http.toEvidenceItems request.evidence)).map Json.jsonb

theorem shownAt_of_row {id : UUID} {steps : List Step} (hs : Valid s) (hrow : row ∈ s.stepsOf id)
    (hevidence : row.HasEvidence request) (hsteps : scanSteps (s.stepsOf id) = .ok steps) :
    ShownAt row.sequenceNumber request
      (steps.map fun step => (step.sequenceNumber, Response.fromEvidenceItems step.evidence)) := by
  constructor
  · obtain ⟨step, hscan⟩ := (hs.readable hrow).scan
    refine ⟨Response.fromEvidenceItems step.evidence, List.mem_map.mpr ⟨step, ?_, ?_⟩⟩
    · exact mem_scanSteps hsteps hrow hscan
    · rw [(taken_of_scan row step hscan).2]
  · intro items hitems
    obtain ⟨step, hstep, heq⟩ := List.mem_map.mp hitems
    obtain ⟨hnumber, rfl⟩ := Prod.mk.inj heq
    obtain ⟨row', hrow', hscan⟩ := row_of_scanSteps hsteps hstep
    -- steps are numbered one by one
    have hnodup : ((s.stepsOf id).map StepRow.sequenceNumber).Nodup := by
      obtain ⟨i, hi, rfl⟩ := hs.owner hrow
      rw [(hs.consistent i hi).numbers]
      exact List.nodup_range'
    rw [(taken_of_scan row' step hscan).2] at hnumber
    obtain rfl := List.inj_on_of_nodup_map hnodup hrow' hrow hnumber
    rw [evidence_of_scan hscan hevidence]
    exact shows_stored request.evidence

/-! ## Accepted decisions -/

/-- The row is the step of a call under `key`: the one that the call recorded, or the one that was
recorded under the key before. -/
structure StepRow.IsStepOf (row : StepRow) (a : Attempt) (key : Option String) : Prop where
  under : row.idempotencyKey = key
  own : key = none → row.id = a.stepID

theorem Accepts.evidence {d : DecisionResult} {ws : List Write} {key : Option String}
    (h : Accepts s a d ws) (hinput : a.input = request.toDecisionInput key) :
    ∃ row ∈ (Txn.applyAll ws s).stepsOf a.investigationID, row.IsStepOf a key ∧
      row.HasEvidence request := by
  have hkey : a.input.idempotencyKey = key := by
    rw [hinput]
    rfl
  have hevidence : a.input.evidence = Http.toEvidenceItems request.evidence := by
    rw [hinput]
    rfl
  cases h with
  | @replay i r step _ _ hrecorded _ hequivalent _ =>
    obtain ⟨k, hk, hr, hrkey⟩ := hrecorded
    obtain rfl : key = some k := hkey.symm.trans hk
    refine ⟨r, hr, ⟨hrkey, fun hnone => nomatch hnone⟩, ?_⟩
    rw [StepRow.HasEvidence, ← hevidence]
    simp only [equivalent, Bool.and_eq_true, decide_eq_true_eq] at hequivalent
    exact hequivalent.2
  | @advance i next edge step hid hadvances _ _ =>
    refine ⟨a.row s i edge, hid ▸ hadvances.mem_stepsOf, ⟨hkey, fun _ => rfl⟩, ?_⟩
    rw [StepRow.HasEvidence, ← hevidence]
    rfl

section

variable {ι : Type} [DecidableEq ι] {ops : ι → Operation} {trace later : List (ι × Txn.Event)}
  {sys sys' : Server ι}

/-- A view that was sent after the row was there shows its evidence. -/
theorem Viewed.shownAt {β : Type} {id : UUID} {t : Store}
    {view : Store → Investigation → Version → Alert → Node → List Step → β}
    {r : Except AppError β} (h : Viewed s id view r t) (hrow : row ∈ s.stepsOf id)
    (hevidence : row.HasEvidence request) :
    ∃ u i v al n steps, r = .ok (view u i v al n steps) ∧ ShownAt row.sequenceNumber request
      (steps.map fun step => (step.sequenceNumber, Response.fromEvidenceItems step.evidence)) := by
  obtain ⟨u, i, v, al, n, steps, hu, -, hkept, hshown, hview⟩ := h.shown_of_step hrow
  exact ⟨u, i, v, al, n, steps, hview, shownAt_of_row hu hkept hevidence hshown.steps⟩

/-- The evidence of an accepted decision is shown by every later view as it was sent, item by
item, with the same values as data, and what is stored as evidence can always be read. -/
theorem evidence_shown (h : Reachable s) (hrun : Txn.Run (clients s ops) trace sys) {j : ι}
    {key : Option String} (hop : ops j = .decide a ∨ ops j = .submit a)
    (hinput : a.input = request.toDecisionInput key) {reply : Reply}
    (haccepted : sys.session j = .idle (.ret (.ok reply))) (hlater : Txn.Run sys later sys') :
    (∃ row ∈ sys.store.stepsOf a.investigationID, row.IsStepOf a key ∧ ∀ k r,
      sys.session k = .idle (ops k).call → sys'.session k = .idle (.ret r) →
      (ops k = .getInvestigation a.investigationID → ∃ state, r = .ok (.state state) ∧
        ShownAt row.sequenceNumber request
          ((Response.toInvestigationState state).steps.map fun step =>
            (step.sequenceNumber, step.evidence))) ∧
      (ops k = .report a.investigationID → ∃ report, r = .ok (.report report) ∧
        ShownAt row.sequenceNumber request
          ((Response.toInvestigationReport report).path.map fun step =>
            (step.stepNumber, step.evidence)))) ∧
    ∀ row ∈ sys'.store.steps, ∃ items, decodeEvidence row.evidence = .ok items := by
  obtain ⟨calls, htracked⟩ := h.tracked hrun
  obtain ⟨⟨calls', htracked'⟩, -⟩ := htracked.run hlater
  constructor
  · have hrow : ∃ row ∈ sys.store.stepsOf a.investigationID, row.IsStepOf a key ∧
        row.HasEvidence request := by
      have hanswer := htracked.answer haccepted
      rcases hop with hop | hop
      · rw [hop] at hanswer
        obtain ⟨d, -, t, ws, -, -, haccepts, htu⟩ := hanswer
        obtain ⟨row, hrow, hstep, hevidence⟩ := haccepts.evidence hinput
        exact ⟨row, (htu.steps _).subset hrow, hstep, hevidence⟩
      · rw [hop] at hanswer
        obtain ⟨state, -, t, d, ws, -, -, haccepts, -, u, -, htu, hus, -⟩ := hanswer
        obtain ⟨row, hrow, hstep, hevidence⟩ := haccepts.evidence hinput
        exact ⟨row, ((htu.trans hus).steps _).subset hrow, hstep, hevidence⟩
    obtain ⟨row, hrow, hstep, hevidence⟩ := hrow
    refine ⟨row, hrow, hstep, fun k r hsent hanswer => ?_⟩
    have hr := h.answers_later hrun hlater hsent hanswer
    constructor
    · intro hk
      rw [hk] at hr
      obtain ⟨r', hviewed, rfl⟩ := hr
      obtain ⟨u, i, v, al, n, steps, rfl, hshown⟩ := hviewed.shownAt hrow hevidence
      refine ⟨_, rfl, ?_⟩
      simp only [Http.Response.toInvestigationState, List.map_map]
      exact hshown
    · intro hk
      rw [hk] at hr
      obtain ⟨r', hviewed, rfl⟩ := hr
      obtain ⟨u, i, v, al, n, steps, rfl, hshown⟩ := hviewed.shownAt hrow hevidence
      refine ⟨_, rfl, ?_⟩
      simp only [Http.Response.toInvestigationReport, List.map_map]
      exact hshown
  · intro row hrow
    have hmem : row ∈ sys'.store.stepsOf row.investigationID :=
      List.mem_filter.mpr ⟨hrow, decide_eq_true rfl⟩
    obtain ⟨items, hitems⟩ := htracked'.inv.readable hmem
    rw [hitems, decodeEvidence_jsonb]
    exact ⟨_, rfl⟩

end

/-- A client that decides, and one that reads the report. -/
def Triage.decidesAndReports : Bool → Operation
  | false => .decide (Triage.submission 5 (Triage.body 20 (.bool true)))
  | true => .report 4

/-- The report shows the evidence of the decision before it. -/
theorem evidence_shown_triage : ∃ report, ((Operation.report 4).call.run
    (after [.decide (Triage.submission 5 (Triage.body 20 (.bool true)))] Triage.started)).1 =
      .ok (.report report) ∧
    ShownAt 1 (Triage.body 20 (.bool true)) ((Response.toInvestigationReport report).path.map
      fun step => (step.stepNumber, step.evidence)) := by
  obtain ⟨trace, hrun⟩ := Txn.run_alone (i := false) (Triage.decidesAndReports false).call
    (fun j _ => rfl) (rfl : (clients Triage.started Triage.decidesAndReports).session false = _)
  have hreply : ((Triage.decidesAndReports false).call.run Triage.started).1 = .ok (.decision
      ⟨⟨4, 3, 2, .inProgress, 11, 10, none, none⟩, ⟨5, 4, 2, 1, 10, 20, ⟨.human, none⟩, none,
        [⟨"log", "seen", some (.obj [("k", .bool true)])⟩], some "key", 11⟩, false⟩) := by
    decide +kernel
  have hwaiting := Txn.System.put_of_ne (clients Triage.started Triage.decidesAndReports)
    (.idle (.ret ((Triage.decidesAndReports false).call.run Triage.started).1))
    ((Triage.decidesAndReports false).call.run Triage.started).2 (by decide : true ≠ false)
  obtain ⟨later, hlater⟩ := Txn.run_alone (i := true) (Triage.decidesAndReports true).call
    (fun j hj => by rw [Bool.eq_false_of_not_eq_true hj]; rfl) hwaiting
  have hinput : (Triage.submission 5 (Triage.body 20 (.bool true))).input =
      (Triage.body 20 (.bool true)).toDecisionInput (some "key") := rfl
  obtain ⟨⟨row, hrow, -, hviews⟩, -⟩ := evidence_shown Triage.reachable_started hrun (.inl rfl)
    hinput ((Txn.System.put_self ..).trans (congrArg _ (congrArg _ hreply))) hlater
  obtain ⟨report, hreport, hshown⟩ := (hviews true _ hwaiting (Txn.System.put_self ..)).2 rfl
  have hnumber : ∀ r ∈ (after [.decide (Triage.submission 5 (Triage.body 20 (.bool true)))]
      Triage.started).stepsOf 4, r.sequenceNumber = 1 := by
    decide +kernel
  rw [hnumber row hrow] at hshown
  exact ⟨report, hreport, hshown⟩

end Interbellum
