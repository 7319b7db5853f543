import Interbellum.Server.Operations

/-!
# Published versions and recorded histories stay

Graph replacement deletes rows by version, publishing and cloning write the same tables, and
a report joins four of them. None of it reaches what is published or recorded.

* `published_frozen`: a published version passed validation, and it and its graph stay.
* `history_stable`: steps are only appended, and a completed investigation has one report.
-/

namespace Interbellum

variable {s : Store} {ι : Type} [DecidableEq ι] {ops : ι → Operation}
  {trace later : List (ι × Txn.Event)} {sys sys' : Server ι}

/-- A published version has passed validation, and from then on neither its row nor its graph
changes, however the statements of the clients interleave. -/
theorem published_frozen (h : Reachable s) (hrun : Txn.Run (clients s ops) trace sys)
    (hlater : Txn.Run sys later sys') {v : Version} (hv : v ∈ sys.store.versions)
    (hp : v.status = .published) :
    (sys.store.graphOf v).validate = [] ∧ v ∈ sys'.store.versions ∧
      (∀ w ∈ sys'.store.versions, w.id = v.id → w = v) ∧
      sys'.store.nodeRows v.id = sys.store.nodeRows v.id ∧
      sys'.store.edgeRows v.id = sys.store.edgeRows v.id := by
  obtain ⟨calls, htracked⟩ := h.tracked hrun
  obtain ⟨⟨calls', htracked'⟩, hevolves⟩ := htracked.run hlater
  have hs : Valid sys.store := htracked.inv
  have hs' : Valid sys'.store := htracked'.inv
  have hmem : v ∈ sys'.store.versions := Evolves.published hevolves hv hp
  refine ⟨hs.published v hv hp, hmem, ?_, Evolves.frozen hevolves v hv hp⟩
  intro w hw hid
  exact List.inj_on_of_nodup_map hs'.version_ids hw hmem hid

/-- A client that publishes the draft, and three that would change it: with another graph, with
another date, and as a template for a new version. -/
def Triage.changes : Fin 4 → Operation
  | 0 => .publish 2 8
  | 1 => .replaceGraph 2 Triage.replacement
  | 2 => .publish 2 9
  | 3 => .createVersion 1 (some 2) 30 (· + 40) 9

/-- The replacement has begun before the version is published, and waits for its lock. From then
on the version stays, whatever the three do in turns. -/
theorem published_frozen_triage : ∃ sys sys' : Server (Fin 4),
    let v : Version := ⟨2, 1, 1, .published, some 10, 7, some 8⟩
    (sys'.session 1).answer? = some (.error (.new .versionNotDraft
      ("playbook version %s is %s; published definitions are immutable — " ++
        "create a new version instead") [.uuid 2, .str "published"])) ∧
    sys'.store.versionNumbers 1 = [1, 2] ∧ v ∈ sys.store.versions ∧ v ∈ sys'.store.versions ∧
      (sys.store.graphOf v).validate = [] ∧ sys'.store.nodeRows 2 = sys.store.nodeRows 2 ∧
        sys'.store.edgeRows 2 = sys.store.edgeRows 2 := by
  obtain ⟨trace, sys, later, sys', hrun, hlater, hv, hrefused, hnumbers⟩ : ∃ trace sys later sys',
      Txn.Run (clients Triage.drafted Triage.changes) trace sys ∧ Txn.Run sys later sys' ∧
      ⟨2, 1, 1, .published, some 10, 7, some 8⟩ ∈ sys.store.versions ∧
      (sys'.session 1).answer? = some (.error (.new .versionNotDraft
        ("playbook version %s is %s; published definitions are immutable — " ++
          "create a new version instead") [.uuid 2, .str "published"])) ∧
      sys'.store.versionNumbers 1 = [1, 2] :=
    ⟨_, _, _, _, Txn.run_follow ([1] ++ List.replicate 12 0) _,
      Txn.run_follow (List.replicate 30 [3, 2, 1]).flatten _, by decide +kernel,
      by decide +kernel, by decide +kernel⟩
  obtain ⟨hvalid, hmem, -, hnodes, hedges⟩ :=
    published_frozen Triage.reachable_drafted hrun hlater hv rfl
  exact ⟨sys, sys', hrefused, hnumbers, hv, hmem, hvalid, hnodes, hedges⟩

/-! ## Histories -/

section

variable {i j : Investigation} {v w : Version} {a b : Alert} {n m : Node} {steps steps' : List Step}

/-- The rows a view shows of a completed investigation are the same in every later state. -/
theorem Shown.stable {t u : Store} (h : Shown t i v a n steps) (h' : Shown u j w b m steps')
    (hu : Valid u) (he : Evolves t u) (hcompleted : i.status = .completed) (hid : j.id = i.id) :
    reportView u j w b m steps' = reportView t i v a n steps := by
  obtain rfl : j = i := List.inj_on_of_nodup_map hu.investigation_ids h'.investigation
    (he.completed_row h.investigation hcompleted) hid
  obtain rfl : w = v := List.inj_on_of_nodup_map hu.version_ids h'.bound.1
    (he.published h.bound.1 h.bound.2.2.1) (h'.bound.2.1.trans h.bound.2.1.symm)
  obtain rfl : b = a := List.inj_on_of_nodup_map hu.alert_ids h'.alert (he.alerts a h.alert)
    (h'.alert_id.trans h.alert_id.symm)
  have hsteps := h'.steps
  rw [he.completed j h.investigation hcompleted, h.steps] at hsteps
  rw [reportView, reportView, h.bound.graphOf he, Except.ok.inj hsteps]

end

/-- A client that reads the report of a completed investigation gets the one of the state in
which it was completed. -/
theorem Shown.report {t u : Store} {i : Investigation} {v : Version} {a : Alert} {n : Node}
    {steps : List Step} {r : Except AppError InvestigationService.Report}
    (h : Shown t i v a n steps) (hcompleted : i.status = .completed)
    (hviewed : Viewed t i.id reportView r u) : r = .ok (reportView t i v a n steps) := by
  obtain ⟨x, hx, htx, -, ⟨hnone, -⟩ | ⟨j, w, b, m, steps', hid, hshown, rfl⟩⟩ := hviewed
  · exact absurd rfl (hnone i (htx.completed_row h.investigation hcompleted))
  · rw [h.stable hshown hx htx hcompleted hid]

/-- What is recorded of an investigation stays: its steps are a prefix of the later ones, its
alert and version are the same, and every report read after it was completed is the same. -/
theorem history_stable (h : Reachable s) (hrun : Txn.Run (clients s ops) trace sys)
    (hlater : Txn.Run sys later sys') {i : Investigation} (hi : i ∈ sys.store.investigations) :
    sys.store.stepsOf i.id <+: sys'.store.stepsOf i.id ∧
    (∃ i' ∈ sys'.store.investigations, i'.id = i.id ∧ i'.alertID = i.alertID ∧
      i'.playbookVersionID = i.playbookVersionID) ∧
    (∃ a ∈ sys.store.alerts, a.id = i.alertID ∧ a ∈ sys'.store.alerts) ∧
    (i.status = .completed → ∃ report,
      (InvestigationService.report i.id).run.run sys.store = (.ok report, sys.store) ∧
      (InvestigationService.report i.id).run.run sys'.store = (.ok report, sys'.store) ∧
      ∀ k, ops k = .report i.id → sys.session k = .idle (ops k).call →
        ∀ r, sys'.session k = .idle (.ret r) → r = .ok (.report report)) := by
  obtain ⟨calls, htracked⟩ := h.tracked hrun
  obtain ⟨⟨calls', htracked'⟩, hevolves⟩ := htracked.run hlater
  have hs : Valid sys.store := htracked.inv
  have hs' : Valid sys'.store := htracked'.inv
  have hevolves : Evolves sys.store sys'.store := hevolves
  obtain ⟨i', hi', hid, halert, hversion, -⟩ := hevolves.investigations i hi
  obtain ⟨v, a, n, steps, hshown⟩ := hs.shown hi
  refine ⟨hevolves.steps i.id, ⟨i', hi', hid, halert, hversion⟩,
    ⟨a, hshown.alert, hshown.alert_id, hevolves.alerts a hshown.alert⟩, ?_⟩
  intro hcompleted
  obtain ⟨v₀, a₀, n₀, steps₀, hshown₀, hreport⟩ := run_report hs hi
  obtain ⟨v₁, a₁, n₁, steps₁, hshown₁, hreport'⟩ :=
    run_report hs' (hevolves.completed_row hi hcompleted)
  have hstable := hshown₀.stable hshown₁ hs' hevolves hcompleted rfl
  refine ⟨_, hreport, by rw [hreport', hstable], ?_⟩
  intro k hk hsent r hanswer
  have hr := h.answers_later hrun hlater hsent hanswer
  rw [hk] at hr
  obtain ⟨r', hviewed, rfl⟩ := hr
  rw [hshown₀.report hcompleted hviewed]
  rfl

/-- A completed investigation has the same report after its alert type gets a new playbook. -/
theorem history_stable_triage : ∃ report,
    ((InvestigationService.report 4).run.run
      (after [.decide (Triage.attempt 5 21 none)] Triage.started)).1 = .ok report ∧
    ((InvestigationService.report 4).run.run (after [.decide (Triage.attempt 5 21 none),
      .createPlaybook 30 31 9 ⟨"triage 2", "", "ddos", ⟨none, [], []⟩⟩] Triage.started)).1 =
        .ok report := by
  obtain ⟨trace, hrun⟩ :=
    run_operation (after [.decide (Triage.attempt 5 21 none)] Triage.started)
      (.createPlaybook 30 31 9 ⟨"triage 2", "", "ddos", ⟨none, [], []⟩⟩)
  have hi : ⟨4, 3, 2, .completed, 12, 10, some 11, some "resolved"⟩ ∈
      (after [.decide (Triage.attempt 5 21 none)] Triage.started).investigations := by
    decide +kernel
  obtain ⟨-, -, -, hreport⟩ :=
    history_stable (Triage.reachable_started.after _) (.nil _) hrun hi
  obtain ⟨report, hnow, hthen, -⟩ := hreport rfl
  exact ⟨report, congrArg Prod.fst hnow, congrArg Prod.fst hthen⟩

end Interbellum
