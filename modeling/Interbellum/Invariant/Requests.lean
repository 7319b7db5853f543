import Interbellum.Invariant.Decisions
import Interbellum.Invariant.Failures
import Interbellum.Service.AlertService

/-!
# Requests on alerts and investigations

Requests that send several transactions or statements. What one of them has read is still
true when the next one runs, as far as the request relies on it.

* `createAlert_keeps`, `start_keeps`: what they insert keeps `Valid`.
* `get_keeps`, `report_keeps`: the answer is the one that the state of the snapshot gives.
-/

namespace Interbellum

open Txn (applyAll)

variable {s : Store}

/-- A statement on the pool that writes one row. -/
theorem commits_write {G : Store → Store → Prop} {w : Write} {ls : Locks}
    (hvalid : Valid (s.write w)) (hevolves : Evolves s (s.write w)) (hG : G s (s.write w))
    (hcovered : Covered ls w) : rules.Commits G s [w] ls where
  inv := hvalid
  evolves := hevolves
  guarantee := hG
  others := fun _ hcompatible _ hl => same_of_compatible (by simpa using hcovered) hcompatible hl s

/-- The rule for a statement on the pool that is checked against constraints. -/
theorem keeps_pool_guarded {β : Type} {G : Store → Store → Prop} {E : Err → Prop}
    {P : β → Store → Prop} {violations : Store → List (Bool × Err)} {answer : Store → Answer β}
    {onError : Err → Err} (hG : ∀ t, G t t)
    (herror : ∀ t, Valid t → Evolves s t → ∀ v ∈ violations t, v.1 = true → E (onError v.2))
    (h : ∀ t, Valid t → Evolves s t → (∀ v ∈ violations t, v.1 = false) →
      rules.Commits G t (answer t).writes (answer t).locks ∧
        (∀ e, (answer t).result = .error e → E (onError e)) ∧
          ∀ b, (answer t).result = .ok b → ∀ u, Evolves (applyAll (answer t).writes t) u → P b u) :
    (pool (sql (fun s => .guarded (violations s) (answer s)) onError)).Keeps rules G (Yields E P)
      s := by
  refine keeps_pool_sql ?_
  intro t ht het
  cases hfind : (violations t).find? Prod.fst with
  | some v =>
    simp only [Answer.guarded, hfind, Answer.fail]
    exact ⟨commits_nil ht (hG t), fun _ _ _ =>
      herror t ht het v (List.mem_of_find?_eq_some hfind) (List.find?_some hfind)⟩
  | none =>
    obtain ⟨hcommits, hE, hP⟩ := h t ht het (by simpa using hfind)
    simp only [Answer.guarded, hfind]
    refine ⟨hcommits, ?_⟩
    intro u _ heu
    cases hr : (answer t).result with
    | error e => exact hE e hr
    | ok b => exact hP b hr u heu

/-! ## Alerts -/

theorem footprint_insertAlert (s : Store) (a : Alert) :
    Footprint none (fun _ => False) s (s.write (.insertAlert a)) :=
  ⟨fun _ _ _ => ⟨rfl, rfl⟩, .inl rfl⟩

theorem keeps_insertAlert (id : UUID) (now : Time) (input : NewAlert) :
    (pool (AlertRepository.insertAlert id now input)).Keeps rules (Footprint none fun _ => False)
      (Yields Err.Expected fun _ _ => True) s := by
  refine keeps_pool_guarded (Footprint.refl _ _) ?_ ?_
  · intro t _ _
    simp only [List.forall_mem_cons, List.not_mem_nil, false_imp_iff, implies_true, and_true]
    exact ⟨fun _ => by decide, fun _ => by decide, fun _ => by decide⟩
  intro t ht _ hchecks
  simp only [List.forall_mem_cons] at hchecks
  obtain ⟨-, hexternal, hid, -⟩ := hchecks
  refine ⟨commits_write (ht.insertAlert ?_ ?_) (evolves_insertAlert t _)
    (footprint_insertAlert t _) (by simp [Covered, Write.keys]), fun _ he => (nomatch he),
    fun _ _ _ _ => trivial⟩
  · simpa using hid
  · intro x hx b hb he
    simp only at hx
    rw [hx] at hexternal
    have hnone := List.any_eq_false.mp hexternal b hb
    simp [he] at hnone

theorem createAlert_keeps (hs : Valid s) (id : UUID) (now : Time) (input : NewAlert) :
    (AlertService.create id now input).run.Keeps rules (Footprint none fun _ => False)
      (Yields Expected fun _ _ => True) s := by
  unfold AlertService.create
  split
  · exact fun _ _ _ => expected_of_format (by decide)
  split
  · exact fun _ _ _ => expected_of_format (by decide)
  split
  · exact fun _ _ _ => expected_of_format (by decide)
  split
  · exact fun _ _ _ => expected_of_format (by decide)
  · refine Txn.Call.Keeps.bind ((keeps_insertAlert id now input).reached.mono (fun _ _ hG => hG)
      ?_) hs
    rintro inserted t ⟨ht, -, hinserted⟩
    have hread : ∀ x, (onPool (AlertRepository.getByExternalID x)).run.Keeps rules
        (Footprint none fun _ => False) (Yields Expected fun _ _ => True) t := fun x =>
      keeps_onPool_yields (keeps_pool_row (Footprint.refl _ _) (expected_of_code nofun nofun)
        fun _ _ _ _ _ _ _ => trivial)
    rcases inserted with (e | a)
    · cases e with
      | noRows =>
        cases input.externalID with
        | none => exact fun _ _ _ => expected_of_code nofun nofun
        | some x =>
          refine Txn.Call.Keeps.bind ((hread x).mono (fun _ _ hG => hG) ?_) ht
          rintro (e | a) _ he
          · exact fun _ _ _ => he
          · exact fun _ _ _ => trivial
      | _ => exact fun _ _ _ => hinserted
    · exact fun _ _ _ => trivial

/-! ## Starting -/

/-- What starting an investigation does to the committed state: nothing, or it inserts one that
stands at the root of a version. The version is published now, and handles the alert. -/
inductive Begins (id alertID versionID : UUID) (s : Store) : Store → Prop
  | nothing : Begins id alertID versionID s s
  | insert {inv : Investigation} {v : Version} {root : Node} (hid : inv.id = id)
      (halert : inv.alertID = alertID) (hversion : inv.playbookVersionID = versionID)
      (hbound : Bound s inv v) (hroot : v.rootNodeID = some root.id)
      (hmem : root ∈ s.nodesOf v.id) (hcurrent : inv.currentNodeID = root.id)
      (houtcome : Outcome root inv) :
      Begins id alertID versionID s (s.write (.insertInvestigation inv))

theorem Begins.footprint {id alertID versionID : UUID} {s t : Store}
    (h : Begins id alertID versionID s t) : Footprint none (fun _ => False) s t := by
  cases h with
  | nothing => exact Footprint.refl _ _ s
  | insert => exact ⟨fun _ _ _ => ⟨rfl, rfl⟩, .inl rfl⟩

/-- What a client may be told instead of the state of a new investigation. -/
def startCodes : List Code := [.notFound, .alertTypeMismatch, .versionNotPublished, .conflict]

structure StartRefused (e : AppError) : Prop where
  code : e.code ∈ startCodes
  expected : Expected e

theorem startRefused_of_code {e : AppError} (code : Code) (h : e.code = code)
    (hcode : code ∈ startCodes) (hvalidation : code ≠ .validationFailed)
    (hconflict : code ≠ .conflict) : StartRefused e := by
  subst h
  exact ⟨hcode, expected_of_code hvalidation hconflict⟩

theorem NotFound.refused {e : AppError} (h : NotFound e) : StartRefused e :=
  startRefused_of_code .notFound h (by decide) nofun nofun

/-- A new investigation stands at the root, and is completed when the root is terminal. -/
theorem start_outcome {alertID : UUID} {v : Version} {root : Node} {now : Time}
    {inv : Investigation} (h : Investigation.start alertID v root now = .ok inv) :
    v.status = .published ∧ inv.alertID = alertID ∧ inv.playbookVersionID = v.id ∧
      inv.currentNodeID = root.id ∧ Outcome root inv := by
  unfold Investigation.start at h
  split at h
  · cases h
  · rename_i hstatus
    have hp : v.status = .published := not_not.mp hstatus
    split at h
    · rename_i hk
      obtain rfl := Except.ok.inj h
      exact ⟨hp, rfl, rfl, rfl, .inl ⟨hk, rfl, rfl, rfl⟩⟩
    · rename_i hk
      obtain rfl := Except.ok.inj h
      exact ⟨hp, rfl, rfl, rfl, .inr ⟨hk, rfl, rfl, rfl⟩⟩

/-- The insert of an investigation that was set up from a published version: whatever others
have done since, nothing is wrong with it but that its id may be taken. -/
theorem keeps_insertInvestigation {inv : Investigation} {v : Version} {root : Node} (id : UUID)
    (hbound : Bound s inv v) (hroot : v.rootNodeID = some root.id) (hmem : root ∈ s.nodesOf v.id)
    (hcurrent : inv.currentNodeID = root.id) (houtcome : Outcome root inv) :
    (InvestigationRepository.create id inv).run.Keeps rules
      (Begins id inv.alertID inv.playbookVersionID)
      (Yields StartRefused fun _ _ => True) s := by
  refine keeps_onPool_yields (keeps_pool_guarded (fun _ => .nothing) ?_ ?_)
  · intro t ht het
    obtain ⟨hv, hvid, -, -, -, -, a, ha, haid, -⟩ := hbound.evolves het
    have hroot' : root ∈ t.nodesOf v.id := by
      rw [(hbound.rows het).1]
      exact hmem
    obtain ⟨hstorable, hcompletion⟩ := houtcome.checks ht.toDesign hroot'
    have halert : t.alerts.any (fun a => a.id = inv.alertID) = true :=
      List.any_eq_true.mpr ⟨a, ha, decide_eq_true haid⟩
    have hversion : t.versions.any (fun v => v.id = inv.playbookVersionID) = true :=
      List.any_eq_true.mpr ⟨v, hv, decide_eq_true hvid⟩
    have hnode : (t.nodesOf inv.playbookVersionID).any (fun n => n.id = inv.currentNodeID) = true :=
      List.any_eq_true.mpr ⟨root, hvid ▸ hroot', decide_eq_true hcurrent.symm⟩
    simp only [List.forall_mem_cons, hstorable, hcompletion, halert, hversion, hnode]
    refine ⟨fun h => (nomatch h), fun h => (nomatch h), fun _ => ?_, fun h => (nomatch h),
      fun h => (nomatch h), fun h => (nomatch h), fun _ hv => (List.not_mem_nil hv).elim⟩
    exact ⟨by decide, by decide⟩
  · intro t ht het hchecks
    simp only [List.forall_mem_cons] at hchecks
    obtain ⟨-, -, hid, -⟩ := hchecks
    have hroot' : root ∈ t.nodesOf v.id := by
      rw [(hbound.rows het).1]
      exact hmem
    refine ⟨commits_write (ht.insertInvestigation ?_ (hbound.evolves het)
      hroot hroot' hcurrent houtcome) (evolves_insertInvestigation t _)
      (.insert rfl rfl rfl (hbound.evolves het) hroot hroot' hcurrent houtcome)
      (by simp [Covered, Write.keys]), fun _ he => (nomatch he), fun _ _ _ _ => trivial⟩
    simpa using hid

/-- What `startFrom` has checked when it goes on. -/
theorem startFrom_ok {versionID : UUID} {now : Time} {a : Alert} {d : Definition}
    {owner : Playbook} {inv : Investigation} {root : Node}
    (h : InvestigationService.startFrom versionID now a d owner = .ok (inv, root)) :
    owner.alertType = a.alertType ∧ d.version.rootNodeID = some root.id ∧ root ∈ d.graph.nodes ∧
      Investigation.start a.id d.version root now = .ok inv := by
  unfold InvestigationService.startFrom at h
  split at h
  · cases h
  · rename_i htype
    cases hroot : InvestigationService.usableRoot d with
    | none => simp [hroot] at h
    | some n =>
      obtain ⟨id, hid, hnode⟩ := Option.bind_eq_some_iff.mp hroot
      cases hstart : Investigation.start a.id d.version n now with
      | error e => simp [hroot, hstart, Except.map] at h
      | ok i =>
        obtain ⟨rfl, rfl⟩ : i = inv ∧ n = root := by simpa [hroot, hstart, Except.map] using h
        have hn : n.id = id := by simpa [Graph.nodeByID] using List.find?_some hnode
        exact ⟨not_not.mp htype, by rw [hid, hn], List.mem_of_find?_eq_some hnode, hstart⟩

/-- `startFrom` only gives up for a reason that the client is told, if a published version
comes with its own graph. -/
theorem startFrom_refused {versionID : UUID} {now : Time} {a : Alert} {d : Definition}
    {owner : Playbook} {e : AppError}
    (h : InvestigationService.startFrom versionID now a d owner = .error e)
    (hroot : d.version.status = .published → (InvestigationService.usableRoot d).isSome) :
    StartRefused e := by
  unfold InvestigationService.startFrom at h
  split at h
  · obtain rfl := Except.error.inj h
    exact startRefused_of_code .alertTypeMismatch rfl (by decide) nofun nofun
  · cases hr : InvestigationService.usableRoot d with
    | none =>
      obtain rfl : InvestigationService.noRoot versionID d = e := by simpa [hr] using h
      have hstatus : d.version.status ≠ .published := by
        intro hp
        have hsome := hroot hp
        rw [hr] at hsome
        cases hsome
      rw [InvestigationService.noRoot, if_pos hstatus]
      exact startRefused_of_code .versionNotPublished rfl (by decide) nofun nofun
    | some n =>
      cases hstart : Investigation.start a.id d.version n now with
      | ok i => simp [hr, hstart, Except.map] at h
      | error e' =>
        obtain rfl : e' = e := by simpa [hr, hstart, Except.map] using h
        unfold Investigation.start at hstart
        split_ifs at hstart
        · obtain rfl := Except.error.inj hstart
          exact startRefused_of_code .versionNotPublished rfl (by decide) nofun nofun

theorem nodeByID_graphOf (hs : Design s) {v : Version} {n : Node} (hn : n ∈ s.nodesOf v.id) :
    (s.graphOf v).nodeByID n.id = some n :=
  find?_of_mem (hs.node_ids_nodup v) (mem_graphOf_nodes.mpr hn)

/-- A published version has a root among its nodes. -/
theorem usableRoot_of_published {t : Store} (hs : Design t) {v : Version} (hv : v ∈ t.versions)
    (hp : v.status = .published) :
    (InvestigationService.usableRoot ⟨v, t.graphOf v⟩).isSome := by
  obtain ⟨root, hroot, n, hn, rfl⟩ :=
    (Graph.validate_nil_iff_publishable.mp (hs.published v hv hp)).root
  show (v.rootNodeID.bind (t.graphOf v).nodeByID).isSome
  rw [show v.rootNodeID = some n.id from hroot, Option.bind_some,
    nodeByID_graphOf hs (mem_graphOf_nodes.mp hn)]
  rfl

/-- Starting does to the committed state what `Begins` says, and fails for the reasons that it
reports only. -/
theorem start_begins (hs : Valid s) (id : UUID) (now : Time) (alertID versionID : UUID) :
    (InvestigationService.start id now alertID versionID).run.Keeps rules
      (Begins id alertID versionID) (Yields StartRefused fun _ _ => True) s := by
  have hG : ∀ t, Begins id alertID versionID t t := fun _ => .nothing
  have hmono : ∀ {β : Type} {P : β → Store → Prop} {r : Except AppError β} {t : Store},
      Yields NotFound P r t → Yields StartRefused P r t :=
    fun h => h.mono (fun _ he => he.refused) fun _ hb => hb
  refine keeps_bind_yields hs ((keeps_getAlert hG alertID).mono (fun _ _ h => h) fun _ _ => hmono) ?_
  rintro a t ht - ⟨ha, rfl⟩
  refine keeps_bind_yields ht
    ((keeps_getVersion ht hG versionID).mono (fun _ _ h => h) fun _ _ => hmono) ?_
  rintro d u hu htu ⟨rfl, hd⟩
  refine keeps_bind_yields hu ((keeps_getPlaybook hu hG d.version.playbookID).mono
    (fun _ _ h => h) fun _ _ => hmono) ?_
  rintro ⟨owner, versions⟩ w hw huw ⟨howner, hownerid⟩
  cases hstart : InvestigationService.startFrom d.version.id now a d owner with
  | error e =>
    simp only [hstart]
    refine fun _ _ _ => startFrom_refused hstart ?_
    intro hp
    obtain ⟨hv, hgraph⟩ := hd hp
    have hroot := usableRoot_of_published hu.toDesign hv hp
    rwa [← hgraph] at hroot
  | ok r =>
    obtain ⟨inv, root⟩ := r
    simp only [hstart]
    obtain ⟨htype, hroot, hmem, hinv⟩ := startFrom_ok hstart
    obtain ⟨hp, halert, hversion, hcurrent, houtcome⟩ := start_outcome hinv
    obtain ⟨hv, hgraph⟩ := hd hp
    have hbound : Bound w inv d.version := ⟨huw.published hv hp, hversion.symm, hp, owner, howner,
      hownerid, a, (htu.trans huw).alerts a ha, halert.symm, htype⟩
    have hroot' : root ∈ w.nodesOf d.version.id := by
      rw [hgraph, mem_graphOf_nodes] at hmem
      have hframe := huw.frozen _ hv hp
      simpa only [Store.nodesOf, hframe.1] using hmem
    rw [← halert, ← hversion]
    exact keeps_bind_yields hw (keeps_insertInvestigation id hbound hroot hroot' hcurrent houtcome)
      fun _ _ _ _ _ _ _ _ => trivial

theorem start_keeps (hs : Valid s) (id : UUID) (now : Time) (alertID versionID : UUID) :
    (InvestigationService.start id now alertID versionID).run.Keeps rules
      (Footprint none fun _ => False) (Yields StartRefused fun _ _ => True) s :=
  (start_begins hs id now alertID versionID).mono (fun _ _ h => h.footprint) fun _ _ h => h

/-! ## Views -/

theorem sortSteps_of_numbered {rows : List StepRow}
    (h : rows.map StepRow.sequenceNumber = List.range' 1 rows.length) :
    InvestigationRepository.sortSteps rows = rows := by
  apply List.Pairwise.insertionSort_eq
  have hsorted : (rows.map StepRow.sequenceNumber).Pairwise (· ≤ ·) := by
    rw [h]
    exact List.pairwise_le_range'
  rw [List.pairwise_map] at hsorted
  simpa using hsorted

/-- The rows that a view of investigation `i` is made of. -/
structure Shown (t : Store) (i : Investigation) (v : Version) (a : Alert) (n : Node)
    (steps : List Step) : Prop where
  investigation : i ∈ t.investigations
  bound : Bound t i v
  alert : a ∈ t.alerts
  alert_id : a.id = i.alertID
  node : n ∈ t.nodesOf v.id
  node_id : n.id = i.currentNodeID
  steps : scanSteps (t.stepsOf i.id) = .ok steps

theorem Valid.shown (h : Valid s) {i : Investigation} (hi : i ∈ s.investigations) :
    ∃ v a n steps, Shown s i v a n steps := by
  have hconsistent := h.consistent i hi
  obtain ⟨v, -, hbound, -, -⟩ := hconsistent.walk
  obtain ⟨-, hid, -, -, -, -, a, ha, haid, -⟩ := id hbound
  obtain ⟨n, hn, hnid, -⟩ := hconsistent.stands h.toDesign
  obtain ⟨steps, hsteps⟩ := scanSteps_readable hconsistent.evidence
  rw [← hid] at hn
  exact ⟨v, a, n, steps, hi, hbound, ha, haid, hn, hnid, hsteps⟩

/-- What a snapshot of an investigation and its steps answers. -/
def Snapshot (t : Store) (id : UUID) (r : Except AppError (Investigation × List Step)) : Prop :=
  (∀ i ∈ t.investigations, i.id ≠ id) ∧ r = .error (.notFound "investigation") ∨
    ∃ i v a n steps, i.id = id ∧ Shown t i v a n steps ∧ r = .ok (i, steps)

theorem read_getWithSteps (hs : Valid s) (id : UUID) :
    Snapshot s id (((InvestigationRepository.getWithStepsBody id).run.read s).mapError
      translate) := by
  cases hrow : (s.investigationRows id).head? with
  | none =>
    refine .inl ⟨?_, ?_⟩
    · intro i hi he
      rw [List.head?_eq_none_iff] at hrow
      have hmem : i ∈ s.investigationRows id := List.mem_filter.mpr ⟨hi, decide_eq_true he⟩
      simp [hrow] at hmem
    · rw [InvestigationRepository.getWithStepsBody, Txn.Body.read_bind_except,
        InvestigationRepository.selectInvestigation, read_sql, hrow]
      rfl
  | some i =>
    obtain ⟨hi, hid⟩ := List.mem_filter.mp (List.mem_of_mem_head? hrow)
    obtain rfl : i.id = id := of_decide_eq_true hid
    obtain ⟨v, a, n, steps, hshown⟩ := hs.shown hi
    refine .inr ⟨i, v, a, n, steps, rfl, hshown, ?_⟩
    rw [InvestigationRepository.getWithStepsBody, Txn.Body.read_bind_except,
      InvestigationRepository.selectInvestigation, read_sql, hrow]
    show ((_ >>= _ : Db _).run.read s).mapError translate = _
    rw [Txn.Body.read_bind_except, InvestigationRepository.loadSteps, read_sql,
      sortSteps_of_numbered (hs.consistent i hi).numbers, hshown.steps]
    rfl

/-- A view of investigation `id` as one committed state between `s` and `u` gives it. -/
def Viewed {β : Type} (s : Store) (id : UUID)
    (view : Store → Investigation → Version → Alert → Node → List Step → β)
    (r : Except AppError β) (u : Store) : Prop :=
  ∃ t, Valid t ∧ Evolves s t ∧ Evolves t u ∧
    ((∀ i ∈ t.investigations, i.id ≠ id) ∧ r = .error (.notFound "investigation") ∨
      ∃ i v a n steps, i.id = id ∧ Shown t i v a n steps ∧ r = .ok (view t i v a n steps))

section

variable {β : Type} {G : Store → Store → Prop}

section

variable {id : UUID} {view : Store → Investigation → Version → Alert → Node → List Step → β}
  {u : Store}

/-- A view that was answered is that of one valid state. -/
theorem Viewed.shown {x : β} (h : Viewed s id view (.ok x) u) :
    ∃ t i v a n steps, Valid t ∧ Evolves t u ∧ i.id = id ∧ Shown t i v a n steps ∧
      x = view t i v a n steps := by
  obtain ⟨t, ht, -, htu, ⟨-, hview⟩ | ⟨i, v, a, n, steps, hid, hshown, hview⟩⟩ := h
  · cases hview
  · exact ⟨t, i, v, a, n, steps, ht, htu, hid, hshown, Except.ok.inj hview⟩

/-- The investigation of a step is never deleted. -/
theorem Viewed.shown_of_step {row : StepRow} {r : Except AppError β} (h : Viewed s id view r u)
    (hrow : row ∈ s.stepsOf id) : ∃ t i v a n steps, Valid t ∧ i.id = id ∧
      row ∈ t.stepsOf i.id ∧ Shown t i v a n steps ∧ r = .ok (view t i v a n steps) := by
  obtain ⟨t, ht, hst, -, hview⟩ := h
  have hkept : row ∈ t.stepsOf id := (hst.steps id).subset hrow
  rcases hview with ⟨hnone, -⟩ | ⟨i, v, a, n, steps, rfl, hshown, hview⟩
  · obtain ⟨i, hi, hid⟩ := ht.owner hkept
    exact absurd hid (hnone i hi)
  · exact ⟨t, i, v, a, n, steps, ht, rfl, hkept, hshown, hview⟩

end

/-- What reads on from a snapshot comes to the view of the snapshot, whatever has become of
the state in the meantime. -/
def ReadsOn (G : Store → Store → Prop) (k : Investigation × List Step → Svc β)
    (view : Store → Investigation → Version → Alert → Node → List Step → β) : Prop :=
  ∀ t u i v a n steps, Valid t → Valid u → Evolves t u → Shown t i v a n steps →
    (k (i, steps)).run.Keeps rules G (fun r _ => r = .ok (view t i v a n steps)) u

/-- The rule for a request that looks at a snapshot first and reads on from there. -/
theorem keeps_viewed {view : Store → Investigation → Version → Alert → Node → List Step → β}
    {k : Investigation × List Step → Svc β} (hs : Valid s) (id : UUID) (hk : ReadsOn G k view) :
    (InvestigationRepository.getWithSteps id >>= k).run.Keeps rules G (Viewed s id view) s := by
  have hsnapshot : (InvestigationRepository.getWithSteps id).run.Keeps rules G
      (fun r u => ∃ t, Valid t ∧ Evolves s t ∧ Evolves t u ∧ Snapshot t id r) s :=
    keeps_inSnapshot fun t ht hst u _ htu => ⟨t, ht, hst, htu, read_getWithSteps ht id⟩
  have hbind : (InvestigationRepository.getWithSteps id >>= k).run =
      (InvestigationRepository.getWithSteps id).run >>= ExceptT.bindCont k := rfl
  rw [hbind]
  refine Txn.Call.Keeps.bind (hsnapshot.reached.mono (fun _ _ hG => hG) ?_) hs
  rintro r u ⟨hu, -, t, ht, hst, htu, ⟨hnone, rfl⟩ | ⟨i, v, a, n, steps, hid, hshown, rfl⟩⟩
  · exact fun w _ huw => ⟨t, ht, hst, Evolves.trans htu huw, .inl ⟨hnone, rfl⟩⟩
  · refine (hk t u i v a n steps ht hu htu hshown).reached.mono (fun _ _ hG => hG) ?_
    rintro r w ⟨-, huw, hr⟩
    exact ⟨t, ht, hst, Evolves.trans htu huw, .inr ⟨i, v, a, n, steps, hid, hshown, hr⟩⟩

/-- Alone, the request answers the view of the state, which it leaves as it is. -/
theorem run_viewed {view : Store → Investigation → Version → Alert → Node → List Step → β}
    {k : Investigation × List Step → Svc β} (hs : Valid s) (hk : ReadsOn (fun t u => u = t) k view)
    {i : Investigation} (hi : i ∈ s.investigations) :
    ∃ v a n steps, Shown s i v a n steps ∧
      (InvestigationRepository.getWithSteps i.id >>= k).run.run s =
        (.ok (view s i v a n steps), s) := by
  have hbind : (InvestigationRepository.getWithSteps i.id >>= k).run =
      (InvestigationRepository.getWithSteps i.id).run >>= ExceptT.bindCont k := rfl
  have hread : (InvestigationRepository.getWithSteps i.id).run.run s =
      (((InvestigationRepository.getWithStepsBody i.id).run.read s).mapError translate, s) := rfl
  rw [hbind, Txn.Call.run_bind, hread]
  rcases read_getWithSteps hs i.id with ⟨hnone, -⟩ | ⟨j, v, a, n, steps, hid, hshown, hr⟩
  · exact absurd rfl (hnone i hi)
  · obtain rfl : j = i := List.inj_on_of_nodup_map hs.investigation_ids hshown.investigation hi hid
    rw [hr]
    have hkeeps := hk s s j v a n steps hs hs (Evolves.refl s) hshown
    refine ⟨v, a, n, steps, hshown, Prod.ext (hkeeps.run hs).2.2 ?_⟩
    exact hkeeps.run_guarantee hs (fun _ => rfl) fun _ _ _ htu huv => huv.trans htu

theorem Bound.graphOf {i : Investigation} {v : Version} {t u : Store} (h : Bound t i v)
    (he : Evolves t u) : u.graphOf v = t.graphOf v := by
  have hframe := he.frozen v h.1 h.2.2.1
  exact graphOf_congr hframe.1 hframe.2

theorem keeps_shownVersion (hG : ∀ t, G t t) {t : Store} {i : Investigation} {v : Version}
    (hs : Valid s) (hbound : Bound t i v) (he : Evolves t s) :
    (PlaybookRepository.getVersion i.playbookVersionID).run.Keeps rules G
      (fun r _ => r = .ok ⟨v, t.graphOf v⟩) s := by
  obtain ⟨hv, hid, hp, -⟩ := hbound.evolves he
  rw [← hid, ← hbound.graphOf he]
  exact keeps_getVersion_of_published hs hG hv hp

def stateView (t : Store) (i : Investigation) (v : Version) (a : Alert) (n : Node)
    (steps : List Step) : InvestigationService.State :=
  ⟨i, a, n, InvestigationService.choicesFor (t.graphOf v) i, steps⟩

def reportView (t : Store) (i : Investigation) (v : Version) (a : Alert) (_ : Node)
    (steps : List Step) : InvestigationService.Report :=
  ⟨i, a, ⟨v, t.graphOf v⟩, steps⟩

/-- A request that goes on with the alert and the version of a snapshot. -/
theorem keeps_bind_shown {k : Alert → Definition → Svc β} {Q : Except AppError β → Store → Prop}
    (hG : ∀ t, G t t) {t u : Store} {i : Investigation} {v : Version} {a : Alert} {n : Node}
    {steps : List Step} (hu : Valid u) (htu : Evolves t u) (hshown : Shown t i v a n steps)
    (hk : ∀ w, (k a ⟨v, t.graphOf v⟩).run.Keeps rules G Q w) :
    (AlertRepository.get i.alertID >>= fun a =>
      PlaybookRepository.getVersion i.playbookVersionID >>= k a).run.Keeps rules G Q u := by
  have hread := keeps_getAlert_of_mem (s := u) hG (htu.alerts a hshown.alert)
  rw [hshown.alert_id] at hread
  refine keeps_bind_ok hu hread fun w hw huw => ?_
  have hversion := keeps_shownVersion hG hw hshown.bound (Evolves.trans htu huw)
  exact keeps_bind_ok hw hversion fun x _ _ => hk x

theorem get_readsOn (hG : ∀ t, G t t) :
    ReadsOn G (fun r => InvestigationService.buildState r.1 r.2) stateView := by
  intro t u i v a n steps ht hu htu hshown
  refine keeps_bind_shown hG hu htu hshown fun w => ?_
  have hnode : (t.graphOf v).nodeByID i.currentNodeID = some n := by
    rw [← hshown.node_id]
    exact nodeByID_graphOf ht.toDesign hshown.node
  simp only [hnode]
  exact fun _ _ _ => rfl

theorem get_keeps (hs : Valid s) (hG : ∀ t, G t t) (id : UUID) :
    (InvestigationService.get id).run.Keeps rules G (Viewed s id stateView) s :=
  keeps_viewed hs id (get_readsOn hG)

theorem run_get (hs : Valid s) {i : Investigation} (hi : i ∈ s.investigations) :
    ∃ v a n steps, Shown s i v a n steps ∧
      (InvestigationService.get i.id).run.run s = (.ok (stateView s i v a n steps), s) :=
  run_viewed hs (get_readsOn fun _ => rfl) hi

/-- `report` after its snapshot. -/
def readReport (inv : Investigation) (steps : List Step) : Svc InvestigationService.Report := do
  let alertRecord ← AlertRepository.get inv.alertID
  let d ← PlaybookRepository.getVersion inv.playbookVersionID
  return ⟨inv, alertRecord, d, steps⟩

theorem report_readsOn (hG : ∀ t, G t t) :
    ReadsOn G (fun r => readReport r.1 r.2) reportView := by
  intro t u i v a n steps _ hu htu hshown
  exact keeps_bind_shown hG hu htu hshown fun _ _ _ _ => rfl

theorem report_keeps (hs : Valid s) (hG : ∀ t, G t t) (id : UUID) :
    (InvestigationService.report id).run.Keeps rules G (Viewed s id reportView) s :=
  keeps_viewed hs id (report_readsOn hG)

theorem run_report (hs : Valid s) {i : Investigation} (hi : i ∈ s.investigations) :
    ∃ v a n steps, Shown s i v a n steps ∧
      (InvestigationService.report i.id).run.run s = (.ok (reportView s i v a n steps), s) :=
  run_viewed hs (report_readsOn fun _ => rfl) hi

end

/-! ## Decisions -/

/-- The step the call may record. -/
def Attempt.Records (a : Attempt) (row : StepRow) : Prop :=
  row.id = a.stepID ∧ row.investigationID = a.investigationID ∧
    row.idempotencyKey = a.input.idempotencyKey

variable {a : Attempt}

theorem Accepts.footprint {d : DecisionResult} {ws : List Write} (h : Accepts s a d ws) :
    Footprint none a.Records s (applyAll ws s) := by
  cases h with
  | replay => exact Footprint.refl _ _ s
  | advance hid _ _ _ => exact ⟨fun _ _ _ => ⟨rfl, rfl⟩, .inr ⟨_, ⟨rfl, hid, rfl⟩, rfl⟩⟩

/-- The step an accepted call answers is recorded, from its commit on. -/
theorem Accepts.recorded {d : DecisionResult} {ws : List Write} (h : Accepts s a d ws) :
    ∃ r ∈ (applyAll ws s).stepsOf a.investigationID, scanStep r = .ok d.step := by
  cases h with
  | replay hi hid hrecorded _ hequivalent hscan =>
    obtain ⟨-, -, hr, -⟩ := hrecorded
    exact ⟨_, hr, hscan⟩
  | @advance i next edge step hid hadvances hedge hscan =>
    exact ⟨a.row s i edge, hid ▸ hadvances.mem_stepsOf, hscan⟩

theorem attempt_keeps (s : Store) (a : Attempt) :
    a.call.run.Keeps rules (Footprint none a.Records) (Returns fun d u => ∃ t ws, Valid t ∧
      Evolves s t ∧ Accepts t a d ws ∧ Evolves (applyAll ws t) u) s :=
  keeps_attempt (fun _ _ _ _ _ h => h.footprint)
    (fun t _ ws ht hst h _ _ hu => ⟨t, ws, ht, hst, h, hu⟩) fun _ _ _ _ _ _ _ _ => trivial

/-- A submission as the service takes it. -/
def Attempt.submit (a : Attempt) : Svc InvestigationService.State :=
  InvestigationService.submitDecision a.stepID a.now a.txNow a.investigationID a.input

theorem submit_keeps (hs : Valid s) (a : Attempt) :
    a.submit.run.Keeps rules (Footprint none a.Records) (Returns fun state u =>
      ∃ t d ws, Valid t ∧ Evolves s t ∧ Accepts t a d ws ∧ d.step ∈ state.steps ∧
        Viewed (applyAll ws t) a.investigationID stateView (.ok state) u) s := by
  unfold Attempt.submit InvestigationService.submitDecision
  cases hvalid : InvestigationService.validateDecision a.input with
  | error e => exact fun _ _ _ => trivial
  | ok =>
    refine keeps_bind hs (attempt_keeps s a) ?_
    rintro d u hu - ⟨t, ws, ht, hst, haccepts, htu⟩
    refine (get_keeps hu (Footprint.refl _ _) a.investigationID).mono (fun _ _ hG => hG) ?_
    rintro (e | state) w hviewed
    · trivial
    · obtain ⟨x, hx, hux, hxw, hview⟩ := hviewed
      have htx : Evolves (applyAll ws t) x := htu.trans hux
      refine ⟨t, d, ws, ht, hst, haccepts, ?_, x, hx, htx, hxw, hview⟩
      obtain ⟨r, hr, hscan⟩ := haccepts.recorded
      rcases hview with ⟨-, hview⟩ | ⟨i, v, al, n, steps, hid, hshown, hview⟩
      · cases hview
      · rw [Except.ok.inj hview]
        have hmem := (htx.steps a.investigationID).subset hr
        rw [← hid] at hmem
        exact mem_scanSteps hshown.steps hmem hscan

end Interbellum
