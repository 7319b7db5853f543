import Interbellum.Guarantees.Choices
import Interbellum.Guarantees.Desk
import Interbellum.Guarantees.Drafts

/-!
# What the desk allows, the server does

The server turns an action down only where the desk does not allow it.

* `ingest_iff`, `start_iff`, `choose_iff`: one request, exactly when the desk has the action, and
  with its effect.
* `desk_decides`: all of them, and that investigations can be brought to their end.
-/

namespace Interbellum

open PlaybookRepository

variable {s : Store}

/-! ## Decisions -/

/-- On the desk, an investigation goes on along the edges that leave where it stands. -/
theorem leads_iff (hs : Valid s) {i : Investigation} (hi : i ∈ s.investigations) {e : UUID} :
    (∃ d', s.desk.Step (.choose i.id e) d') ↔ ∃ edge, edge.id = e ∧ Leaving s i edge := by
  obtain ⟨v, root, hbound, hroot, hwalk⟩ := (hs.consistent i hi).walk
  obtain ⟨hprocedure, -⟩ := hbound.desk hs
  constructor
  · rintro ⟨d', hstep⟩
    cases hstep with
    | @choose _ _ c p b hcase hprocedure' hleads =>
      obtain rfl := Option.some.inj ((hs.case_of_mem hi).symm.trans hcase)
      obtain rfl := Option.some.inj (hprocedure.symm.trans hprocedure')
      obtain ⟨edge, hedge, hid, hfrom, -⟩ := id hleads
      rw [hbound.2.1] at hedge
      refine ⟨edge, hid, ?_, hedge, hfrom⟩
      -- a completed investigation stands where nothing leads on
      cases hstatus : i.status with
      | inProgress => rfl
      | completed =>
        obtain ⟨q, hq, -, hcompleted⟩ := hs.ended hi
        obtain rfl := Option.some.inj (hprocedure.symm.trans hq)
        rw [← procedure_root hroot] at hwalk
        have hends := ((hs.sound hbound.1 hbound.2.2.1).ends _ _ hwalk).mp (hcompleted.mp hstatus)
        exact absurd hleads (hends e b)
  · rintro ⟨edge, rfl, -, hedge, hfrom⟩
    rw [← hbound.2.1] at hedge
    exact ⟨_, .choose (hs.case_of_mem hi) hprocedure ⟨edge, hedge, rfl, hfrom, rfl⟩⟩

/-- An accepted decision that is not a retry is the choice on the desk. -/
theorem Accepts.desk (hs : Valid s) {a : Attempt} (hunused : a.KeyUnused s) {d : DecisionResult}
    {ws : List Write} (h : Accepts s a d ws) :
    s.desk.Step (.choose a.investigationID a.input.edgeID) (Txn.applyAll ws s).desk := by
  cases h with
  | replay _ _ hrecorded =>
    obtain ⟨key, hkey, hr, hrkey⟩ := hrecorded
    exact absurd hrkey (hunused key hkey _ hr)
  | @advance i next edge step hid hadvances hedge hscan =>
    have hstep := hadvances.desk hs
    rw [hid, show (a.row s i edge).selectedEdgeID = a.input.edgeID from hedge] at hstep
    exact hstep

/-- A decision that is not a retry is accepted exactly when the desk has the choice. -/
theorem choose_iff (hs : Valid s) {a : Attempt} (hunused : a.KeyUnused s)
    (hstorable : a.Storable s) {d' : Desk} :
    s.desk.Step (.choose a.investigationID a.input.edgeID) d' ↔
      ∃ r t, a.call.run.run s = (.ok r, t) ∧ t.desk = d' := by
  constructor
  · intro hstep
    have hmem : ∃ i ∈ s.investigations, i.id = a.investigationID := by
      cases hstep with
      | choose hcase =>
        obtain ⟨i, hi, hid, -⟩ := hs.case_iff.mp hcase
        exact ⟨i, hi, hid⟩
    obtain ⟨i, hi, hid⟩ := hmem
    rw [← hid] at hstep
    obtain ⟨edge, hedge, hleaving⟩ := (leads_iff hs hi).mp ⟨d', hstep⟩
    rw [hid] at hstep
    rcases a.run_cases hs with ⟨r, ws, haccepts, hrun⟩ | ⟨e, -, hrun⟩
    · exact ⟨r, _, hrun, hs.coherent.unique (haccepts.desk hs hunused) hstep⟩
    · rcases Attempt.run_fresh hs hi hid hunused hstorable with
        ⟨_, _, _, -, -, -, -, hok⟩ | ⟨hnone, -⟩
      · rw [hrun] at hok
        cases hok
      · exact absurd hleaving (hnone edge hedge)
  · rintro ⟨r, t, hrun, rfl⟩
    rcases a.run_cases hs with ⟨r', ws, haccepts, hok⟩ | ⟨e, -, herror⟩
    · rw [hrun] at hok
      obtain ⟨-, rfl⟩ := Prod.mk.inj hok
      exact haccepts.desk hs hunused
    · rw [hrun] at herror
      cases herror

/-! ## Starting -/

section

variable {id alertID versionID : UUID} {now : Time}

theorem run_getAlert (hs : Valid s) {a : Alert} (ha : a ∈ s.alerts) :
    (AlertRepository.get a.id).run.run s = (.ok a, s) := by
  refine (run_onPool _ _ s).trans ?_
  rw [find?_of_mem hs.alert_ids ha]
  rfl

theorem run_getVersion_row : (getVersion versionID).run.run s =
    match (s.versionRows versionID).head? with
    | none => (.error (.notFound "playbook version"), s)
    | some v => (.ok ⟨v, v.rootNodeID, sortNodes (s.nodesOf versionID),
        sortEdgeRows (s.edgesOf versionID)⟩, s) := by
  rw [← bind_pure (getVersion versionID), getVersion_bind, run_bind_svc, selectVersion, run_onPool]
  cases (s.versionRows versionID).head? with
  | none => rfl
  | some v => rfl

theorem run_version (hs : Valid s) {v : Version} (hv : v ∈ s.versions) :
    (getVersion v.id).run.run s = (.ok ⟨v, s.graphOf v⟩, s) := by
  rw [run_getVersion_row, versionRows_of_mem hs hv]
  rfl

theorem run_playbook (hs : Valid s) {p : Playbook} (hp : p ∈ s.playbooks) :
    ∃ versions, (PlaybookRepository.get p.id).run.run s = (.ok (p, versions), s) := by
  rw [PlaybookRepository.get, PlaybookRepository.getBody, onPool_bind, run_bind_svc, run_onPool,
    playbookRow_of_mem hs hp]
  exact ⟨_, rfl⟩

/-- The first thing that is wrong with a request to start an investigation. -/
def startVerdict (s : Store) (id alertID versionID : UUID) : Option Code :=
  match s.alerts.find? fun a => a.id = alertID with
  | none => some .notFound
  | some a =>
    match s.versions.find? fun v => v.id = versionID with
    | none => some .notFound
    | some v =>
      if (s.procedure v).handles ≠ a.alertType then some .alertTypeMismatch
      else if v.status ≠ .published then some .versionNotPublished
      else if s.investigations.any fun i => i.id = id then some .conflict
      else none

theorem run_getAlert_missing (h : ∀ a ∈ s.alerts, a.id ≠ alertID) :
    (AlertRepository.get alertID).run.run s = (.error (.notFound "alert"), s) := by
  have hnone : s.alerts.find? (fun a => a.id = alertID) = none := by simpa using h
  refine (run_onPool _ _ s).trans ?_
  rw [hnone]
  rfl

theorem run_version_missing (h : ∀ v ∈ s.versions, v.id ≠ versionID) :
    (getVersion versionID).run.run s = (.error (.notFound "playbook version"), s) := by
  have hnone : (s.versionRows versionID).head? = none := by
    rw [Store.versionRows, List.head?_filter]
    simpa using h
  rw [run_getVersion_row, hnone]

theorem run_insertInvestigation (hs : Valid s) {i : Investigation} {v : Version} {root : Node}
    (hbound : Bound s i v) (hmem : root ∈ s.nodesOf v.id) (hcurrent : i.currentNodeID = root.id)
    (houtcome : Outcome root i) :
    (InvestigationRepository.create id i).run.run s =
      if s.investigations.any fun j => j.id = id then
        (.error (.new .conflict "conflicting record already exists" []), s)
      else (.ok { i with id := id }, s.write (.insertInvestigation { i with id := id })) := by
  obtain ⟨hv, hvid, -, -, -, -, a, ha, haid, -⟩ := hbound
  obtain ⟨hstorable, hcompletion⟩ := houtcome.checks hs.toDesign hmem
  have halert : s.alerts.any (fun a => a.id = i.alertID) = true :=
    List.any_eq_true.mpr ⟨a, ha, decide_eq_true haid⟩
  have hversion : s.versions.any (fun v => v.id = i.playbookVersionID) = true :=
    List.any_eq_true.mpr ⟨v, hv, decide_eq_true hvid⟩
  have hnode : (s.nodesOf i.playbookVersionID).any (fun n => n.id = i.currentNodeID) = true :=
    List.any_eq_true.mpr ⟨root, hvid ▸ hmem, decide_eq_true hcurrent.symm⟩
  rw [InvestigationRepository.create, InvestigationRepository.insertInvestigation, run_onPool]
  simp only [guarded_cons, hstorable, hcompletion, halert, hversion, hnode, Bool.not_true,
    Bool.false_eq_true, if_false]
  split
  · rfl
  · rfl

theorem startFrom_cases (hs : Design s) {v : Version} (hv : v ∈ s.versions) (now : Time)
    (a : Alert) (owner : Playbook) : owner.alertType ≠ a.alertType ∧ (∃ e,
      InvestigationService.startFrom v.id now a ⟨v, s.graphOf v⟩ owner = .error e ∧
        e.code = .alertTypeMismatch) ∨
    owner.alertType = a.alertType ∧ v.status ≠ .published ∧ (∃ e,
      InvestigationService.startFrom v.id now a ⟨v, s.graphOf v⟩ owner = .error e ∧
        e.code = .versionNotPublished) ∨
    owner.alertType = a.alertType ∧ v.status = .published ∧ ∃ r,
      InvestigationService.startFrom v.id now a ⟨v, s.graphOf v⟩ owner = .ok r := by
  unfold InvestigationService.startFrom
  by_cases htype : owner.alertType = a.alertType
  · rw [if_neg (not_not.mpr htype)]
    right
    by_cases hp : v.status = .published
    · obtain ⟨root, hroot⟩ := Option.isSome_iff_exists.mp (usableRoot_of_published hs hv hp)
      refine .inr ⟨htype, hp, ?_⟩
      simp only [hroot, Investigation.start, if_neg (not_not.mpr hp)]
      split <;> exact ⟨_, rfl⟩
    · refine .inl ⟨htype, hp, ?_⟩
      cases InvestigationService.usableRoot ⟨v, s.graphOf v⟩ with
      | none => exact ⟨_, rfl, by rw [InvestigationService.noRoot, if_pos hp]; rfl⟩
      | some root =>
        simp only [Investigation.start, if_pos hp, Except.map]
        exact ⟨_, rfl, rfl⟩
  · rw [if_pos htype]
    exact .inl ⟨htype, _, rfl, rfl⟩

/-- Alone, the reads fit together. -/
theorem run_start_reads (hs : Valid s) {a : Alert} (ha : a ∈ s.alerts) {v : Version}
    (hv : v ∈ s.versions) {owner : Playbook} (howner : owner ∈ s.playbooks)
    (hownerid : owner.id = v.playbookID) :
    (InvestigationService.start id now a.id v.id).run.run s =
      match InvestigationService.startFrom v.id now a ⟨v, s.graphOf v⟩ owner with
      | .error e => (.error e, s)
      | .ok (inv, root) => (InvestigationRepository.create id inv >>= fun created =>
          pure ⟨created, a, root, InvestigationService.choicesFor (s.graphOf v) created, []⟩ :
            Svc InvestigationService.State).run.run s := by
  obtain ⟨versions, hplaybook⟩ := run_playbook hs howner
  rw [hownerid] at hplaybook
  simp only [InvestigationService.start, run_bind_svc, run_getAlert hs ha, run_version hs hv,
    hplaybook]
  cases InvestigationService.startFrom v.id now a ⟨v, s.graphOf v⟩ owner with
  | error e => rfl
  | ok r => exact run_bind_svc _ _ s

/-- Starting alone: the verdict, and what is inserted where nothing is wrong. -/
theorem run_start (hs : Valid s) (id : UUID) (now : Time) (alertID versionID : UUID) :
    (startVerdict s id alertID versionID = none ∧
      ∃ i v r, i.id = id ∧ i.alertID = alertID ∧ i.playbookVersionID = versionID ∧ Bound s i v ∧
        v.rootNodeID = some i.currentNodeID ∧ Valid (s.write (.insertInvestigation i)) ∧
        (InvestigationService.start id now alertID versionID).run.run s =
          (.ok r, s.write (.insertInvestigation i))) ∨
    ∃ e, (InvestigationService.start id now alertID versionID).run.run s = (.error e, s) ∧
      startVerdict s id alertID versionID = some e.code := by
  by_cases ha : ∃ a ∈ s.alerts, a.id = alertID
  swap
  · push Not at ha
    have hnone : s.alerts.find? (fun a => a.id = alertID) = none := by simpa using ha
    refine .inr ⟨.notFound "alert", ?_, ?_⟩
    · rw [InvestigationService.start, run_bind_svc, run_getAlert_missing ha]
    · rw [startVerdict, hnone]
      rfl
  obtain ⟨a, ha, rfl⟩ := ha
  by_cases hv : ∃ v ∈ s.versions, v.id = versionID
  swap
  · push Not at hv
    have hnone : s.versions.find? (fun v => v.id = versionID) = none := by simpa using hv
    refine .inr ⟨.notFound "playbook version", ?_, ?_⟩
    · simp only [InvestigationService.start, run_bind_svc, run_getAlert hs ha,
        run_version_missing hv]
    · rw [startVerdict, find?_of_mem hs.alert_ids ha]
      simp only [hnone]
      rfl
  obtain ⟨v, hv, rfl⟩ := hv
  obtain ⟨owner, howner, hownerid⟩ := hs.version_playbook v hv
  have hverdict : startVerdict s id a.id v.id =
      if owner.alertType ≠ a.alertType then some .alertTypeMismatch
      else if v.status ≠ .published then some .versionNotPublished
      else if s.investigations.any fun i => i.id = id then some .conflict else none := by
    simp only [startVerdict, find?_of_mem hs.alert_ids ha, find?_of_mem hs.version_ids hv,
      procedure_handles hs.toDesign howner hownerid]
  rw [run_start_reads hs ha hv howner hownerid, hverdict]
  rcases startFrom_cases hs.toDesign hv now a owner with
    ⟨htype, e, hstart, hcode⟩ | ⟨htype, hp, e, hstart, hcode⟩ | ⟨htype, hp, ⟨inv, root⟩, hstart⟩
  · rw [hstart, if_pos htype]
    exact .inr ⟨e, rfl, by rw [hcode]⟩
  · rw [hstart, if_neg (not_not.mpr htype), if_pos hp]
    exact .inr ⟨e, rfl, by rw [hcode]⟩
  · obtain ⟨-, hroot, hmem, hinv⟩ := startFrom_ok hstart
    obtain ⟨-, halert, hversion, hcurrent, houtcome⟩ := start_outcome hinv
    have hbound : Bound s inv v :=
      ⟨hv, hversion.symm, hp, owner, howner, hownerid, a, ha, halert.symm, htype⟩
    have hmem' : root ∈ s.nodesOf v.id := mem_graphOf_nodes.mp hmem
    rw [hstart, if_neg (not_not.mpr htype), if_neg (not_not.mpr hp)]
    dsimp only
    rw [run_bind_svc, run_insertInvestigation hs hbound hmem' hcurrent houtcome]
    by_cases htaken : (s.investigations.any fun i => i.id = id) = true
    · rw [if_pos htaken, if_pos htaken]
      exact .inr ⟨_, rfl, rfl⟩
    · rw [if_neg htaken, if_neg htaken]
      refine .inl ⟨rfl, { inv with id := id }, v, _, rfl, halert, hversion, hbound, ?_, ?_, rfl⟩
      · rw [← hcurrent] at hroot
        exact hroot
      · exact hs.insertInvestigation (by simpa using htaken) hbound hroot hmem' hcurrent houtcome

theorem startVerdict_of_step (hs : Valid s) {d' : Desk}
    (hstep : s.desk.Step (.start id alertID versionID) d') :
    startVerdict s id alertID versionID = none := by
  cases hstep with
  | start hnew hprocedure hsubject =>
    obtain ⟨v, hv, hp, rfl, rfl⟩ := hs.procedure_iff.mp hprocedure
    obtain ⟨a, ha, rfl, htype⟩ := hs.subject_iff.mp hsubject
    have hfree : (s.investigations.any fun i => i.id = id) = false := by
      simpa using find?_map_eq_none.mp hnew
    simp only [startVerdict, find?_of_mem hs.alert_ids ha, find?_of_mem hs.version_ids hv, htype,
      hp, hfree, ne_eq, not_true_eq_false, Bool.false_eq_true, if_false]

/-- An investigation is started exactly when the desk lets it start, and else the client is told
what is wrong first. -/
theorem start_iff (hs : Valid s) :
    (∀ d', s.desk.Step (.start id alertID versionID) d' ↔ ∃ r t,
      (InvestigationService.start id now alertID versionID).run.run s = (.ok r, t) ∧ t.desk = d') ∧
    ∀ e t, (InvestigationService.start id now alertID versionID).run.run s = (.error e, t) →
      t = s ∧ startVerdict s id alertID versionID = some e.code := by
  rcases run_start hs id now alertID versionID with
    ⟨hverdict, i, v, r, rfl, rfl, rfl, hbound, hroot, hvalid, hrun⟩ | ⟨e, hrun, hverdict⟩
  · have hstep := desk_insertInvestigation hs hvalid hbound hroot
    constructor
    · intro d'
      constructor
      · exact fun hstep' => ⟨r, _, hrun, hs.coherent.unique hstep hstep'⟩
      · rintro ⟨r', t, hrun', rfl⟩
        rw [hrun] at hrun'
        obtain ⟨-, rfl⟩ := Prod.mk.inj hrun'
        exact hstep
    · intro e t herror
      rw [hrun] at herror
      cases herror
  · constructor
    · intro d'
      constructor
      · intro hstep
        rw [startVerdict_of_step hs hstep] at hverdict
        cases hverdict
      · rintro ⟨r', t, hrun', -⟩
        rw [hrun] at hrun'
        cases hrun'
    · intro e' t herror
      rw [hrun] at herror
      obtain ⟨he, rfl⟩ := Prod.mk.inj herror
      obtain rfl := Except.error.inj he
      exact ⟨rfl, hverdict⟩

/-! ## Alerts -/

/-- No alert has the external id of the request. -/
def NewAlert.ExternalUnused (s : Store) (input : NewAlert) : Prop :=
  ∀ x, input.externalID = some x → ∀ b ∈ s.alerts, b.externalID ≠ some x

theorem run_createAlert {input : NewAlert} (haccepted : input.Accepted)
    (hunused : input.ExternalUnused s) : (AlertService.create id now input).run.run s =
      if s.alerts.any fun b => b.id = id then
        (.error (.new .conflict "conflicting record already exists" []), s)
      else (.ok (input.row id now, true), s.write (.insertAlert (input.row id now))) := by
  have hstorable : (input.externalID.all storableText && storableText input.alertType &&
      storableText input.title && storableText input.description &&
        input.payload.all Json.storable) = true := haccepted.storable
  have hexternal : (input.externalID.any fun x =>
      s.alerts.any fun b => b.externalID = some x) = false := by
    cases hx : input.externalID with
    | none => rfl
    | some x => simpa using hunused x hx
  rw [AlertService.create, if_neg haccepted.alertType, if_neg haccepted.title,
    if_neg haccepted.occurredAt, if_neg haccepted.externalID, AlertRepository.create,
    ExceptT.run_mk, AlertRepository.insertAlert, run_pool_bind]
  simp only [guarded_cons, hstorable, hexternal, Bool.not_true, Bool.false_eq_true, if_false]
  cases (s.alerts.any fun b => b.id = id) with
  | true => rfl
  | false => rfl

/-- An alert is ingested exactly when its id is not on the desk. -/
theorem ingest_iff (hs : Valid s) {input : NewAlert} (haccepted : input.Accepted)
    (hunused : input.ExternalUnused s) {d' : Desk} :
    s.desk.Step (.ingest id input.alertType) d' ↔ ∃ r t,
      (AlertService.create id now input).run.run s = (.ok r, t) ∧ t.desk = d' := by
  rw [run_createAlert haccepted hunused]
  by_cases htaken : (s.alerts.any fun b => b.id = id) = true
  · rw [if_pos htaken]
    constructor
    · intro hstep
      cases hstep with
      | ingest hnew =>
        obtain ⟨b, hb, hid⟩ := List.any_eq_true.mp htaken
        exact absurd (of_decide_eq_true hid) (find?_map_eq_none.mp hnew b hb)
    · rintro ⟨r, t, hrun, -⟩
      cases hrun
  · rw [if_neg htaken]
    have hvalid : Valid (s.write (.insertAlert (input.row id now))) := by
      refine hs.insertAlert ?_ hunused
      simpa [NewAlert.row] using htaken
    have hstep := desk_insertAlert hs hvalid
    constructor
    · exact fun hstep' => ⟨_, _, rfl, hs.coherent.unique hstep hstep'⟩
    · rintro ⟨r, t, hrun, rfl⟩
      obtain ⟨-, rfl⟩ := Prod.mk.inj hrun
      exact hstep

/-! ## The desk and the server -/

/-- Alone, the server ingests, starts and decides exactly what the desk lets it, with the effect
that this has on the desk, and a refused start names what is wrong first. On the desk, every
investigation can be brought to its end. -/
theorem desk_decides (h : Reachable s) :
    (∀ id now (input : NewAlert), input.Accepted → input.ExternalUnused s → ∀ d',
      s.desk.Step (.ingest id input.alertType) d' ↔ ∃ r t,
        (AlertService.create id now input).run.run s = (.ok r, t) ∧ t.desk = d') ∧
    (∀ id now alertID versionID d', s.desk.Step (.start id alertID versionID) d' ↔ ∃ r t,
      (InvestigationService.start id now alertID versionID).run.run s = (.ok r, t) ∧
        t.desk = d') ∧
    (∀ id now alertID versionID e t,
      (InvestigationService.start id now alertID versionID).run.run s = (.error e, t) →
        t = s ∧ startVerdict s id alertID versionID = some e.code) ∧
    (∀ a : Attempt, a.KeyUnused s → a.Storable s → ∀ d',
      s.desk.Step (.choose a.investigationID a.input.edgeID) d' ↔ ∃ r t,
        a.call.run.run s = (.ok r, t) ∧ t.desk = d') ∧
    ∀ i ∈ s.investigations, ∃ (choices : List UUID) (d' : Desk),
      s.desk.Run (choices.map (.choose i.id)) d' ∧ ∃ c p, d'.cases i.id = some c ∧
        d'.procedures c.procedure = some p ∧ (p.resolution c.position).isSome := by
  have hs := h.valid
  refine ⟨fun id now input haccepted hunused d' => ingest_iff hs haccepted hunused,
    fun id now alertID versionID d' => (start_iff hs).1 d',
    fun id now alertID versionID => (start_iff hs).2,
    fun a hunused hstorable d' => choose_iff hs hunused hstorable, ?_⟩
  intro i hi
  obtain ⟨choices, d', c, p, hrun, hcase, hprocedure, hend⟩ :=
    hs.coherent.finishes (hs.case_of_mem hi)
  exact ⟨choices, d', hrun, c, p, hcase, hprocedure, hend⟩

/-- An alert as it is sent. -/
def Triage.flood : NewAlert := ⟨some "probe-1", "ddos", "flood", "again", none, 9⟩

/-- The desk takes in what the server does, and only that: the edge 22 leaves another node. -/
theorem desk_decides_triage : (∃ d', Triage.started.desk.Step (.ingest 30 "ddos") d') ∧
    (∃ d', Triage.started.desk.Step (.start 31 3 2) d') ∧
    (∃ d', Triage.started.desk.Step (.choose 4 20) d') ∧
    (¬ ∃ d', Triage.started.desk.Step (.choose 4 22) d') ∧
    startVerdict Triage.started 4 3 2 = some .conflict ∧
    ∃ (choices : List UUID) (d' : Desk),
      Triage.started.desk.Run (choices.map (.choose 4)) d' ∧ ∃ c p, d'.cases 4 = some c ∧
        d'.procedures c.procedure = some p ∧ (p.resolution c.position).isSome := by
  obtain ⟨hingest, hstart, hrefused, hchoose, hfinish⟩ := desk_decides Triage.reachable_started
  have haccepted : Triage.flood.Accepted :=
    ⟨by decide, by decide, by decide, by decide, by decide⟩
  have hexternal : Triage.flood.ExternalUnused Triage.started := by
    unfold NewAlert.ExternalUnused
    rintro x ⟨⟩
    decide +kernel
  have hi : ⟨4, 3, 2, .inProgress, 10, 10, none, none⟩ ∈ Triage.started.investigations := by
    decide +kernel
  have hingested : ∃ r, ((AlertService.create 30 12 Triage.flood).run.run Triage.started).1 =
      .ok r := ⟨(Triage.flood.row 30 12, true), by decide +kernel⟩
  have hbegun : ∃ r, ((InvestigationService.start 31 12 3 2).run.run Triage.started).1 = .ok r :=
    ⟨⟨⟨31, 3, 2, .inProgress, 10, 12, none, none⟩, ⟨3, none, "ddos", "flood", "", .obj [], 9, 9⟩,
      ⟨10, .decision, "Is it real?", "", none, none⟩, [⟨20, 10, 11, "yes", none, 0⟩,
      ⟨21, 10, 12, "no", none, 1⟩], []⟩, by decide +kernel⟩
  have htaken : ((InvestigationService.start 4 12 3 2).run.run Triage.started).1 =
      .error (.new .conflict "conflicting record already exists" []) := by decide +kernel
  have hchosen : ∃ r, ((Triage.attempt 5 20 none).call.run.run Triage.started).1 = .ok r :=
    ⟨⟨⟨4, 3, 2, .inProgress, 11, 10, none, none⟩,
      ⟨5, 4, 2, 1, 10, 20, ⟨.human, none⟩, none, [], none, 11⟩, false⟩, by decide +kernel⟩
  have hmisplaced : ((Triage.attempt 5 22 none).call.run.run Triage.started).1 =
      .error (.new .invalidTransition
        "edge %s originates at node %s, but the investigation is at node %s"
        [.uuid 22, .uuid 11, .uuid 10]) := by decide +kernel
  refine ⟨?_, ?_, ?_, ?_, (hrefused 4 12 3 2 _ _ (Prod.ext htaken rfl)).2, hfinish _ hi⟩
  · obtain ⟨r, hr⟩ := hingested
    exact ⟨_, (hingest 30 12 Triage.flood haccepted hexternal _).mpr
      ⟨r, _, Prod.ext hr rfl, rfl⟩⟩
  · obtain ⟨r, hr⟩ := hbegun
    exact ⟨_, (hstart 31 12 3 2 _).mpr ⟨r, _, Prod.ext hr rfl, rfl⟩⟩
  · obtain ⟨r, hr⟩ := hchosen
    exact ⟨_, (hchoose _ (Triage.attempt_unused 20) (Triage.attempt_storable 20) _).mpr
      ⟨r, _, Prod.ext hr rfl, rfl⟩⟩
  · rintro ⟨d', hstep⟩
    obtain ⟨r, t, hr, -⟩ :=
      (hchoose _ (Triage.attempt_unused 22) (Triage.attempt_storable 22) d').mp hstep
    rw [hr] at hmisplaced
    cases hmisplaced

end

end Interbellum
