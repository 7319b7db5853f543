import Interbellum.Server.Operations
import Interbellum.Txn.Atomic

/-!
# Requests in atomic steps

What each request does, said without statements, locks and other clients. Most requests are one
atomic step, also those that send many statements: what such a request reads before the step that
decides it cannot change any more, and what it reads after it has been settled by then. Two are
not: a submission decides first and then looks at the investigation, and the graph of a version
that is not published is read one table after the other.

* `Operation.plan`: the atomic steps of a request.
* `Operation.refines`: every request refines its plan.
-/

namespace Interbellum

open Txn (Plan)
open PlaybookRepository (sortNodes sortEdgeRows)

section

variable {β γ : Type} {s : Store}

theorem onPool_bind (x : Db β) (k : β → Db γ) :
    onPool (x >>= k) = onPool x >>= fun b => onPool (k b) := by
  refine ExceptT.ext ?_
  have hbind : (onPool x >>= fun b => onPool (k b)).run =
      (onPool x).run >>= ExceptT.bindCont fun b => onPool (k b) := rfl
  rw [hbind]
  show Except.mapError translate <$> pool (x >>= k) = (Except.mapError translate <$> pool x) >>= _
  rw [pool_bind, ExceptT.run_bind, map_bind, bind_map_left]
  refine congrArg (pool x >>= ·) (funext ?_)
  rintro (e | b) <;> rfl

/-- A read on the pool before the step that has the effect. An error of it is the answer. What it
returns has settled the answer, or every later state has it too. -/
theorem refines_bind_read {f : Store → Answer β} {onError : Err → Err} {k : β → Svc γ}
    {spec : Store → Except AppError γ × Store}
    (hspec : ∀ t, Valid t → Evolves s t → (onPool (sql f onError) >>= k).run.run t = spec t)
    (hreads : ∀ t, (f t).writes = [])
    (h : ∀ t, Valid t → Evolves s t → ∀ b, (f t).result = .ok b →
      (∃ a, (k b).run.Settled rules a t) ∨
        (∀ u, Valid u → Evolves t u → ∃ b', (f u).result = .ok b' ∧ k b' = k b) ∧
          ((∀ u, Valid u → Evolves t u → (k b).run.run u = spec u) →
            (k b).run.Refines rules (.once spec) t)) :
    (onPool (sql f onError) >>= k).run.Refines rules (.once spec) s := by
  refine Txn.Call.refines_once_read (fun s => ⟨(f s).locks, (f s).writes⟩)
    (fun s => ExceptT.bindCont k (((f s).result.mapError onError).mapError translate))
    hspec hreads ?_
  intro t ht hst
  cases hr : (f t).result with
  | error e => exact .inl ⟨.error (translate (onError e)), fun _ _ _ => rfl⟩
  | ok b =>
    refine (h t ht hst b hr).imp_right ?_
    rintro ⟨hstable, hrefines⟩
    refine ⟨?_, hrefines⟩
    intro u hu htu
    obtain ⟨b', hr', hk⟩ := hstable u hu htu
    rw [hr']
    exact congrArg ExceptT.run hk

/-- A read on the pool that cannot fail, and does not matter for the answer. -/
theorem settled_bind_read {g : Store → β} {onError : Err → Err} {k : β → Svc γ}
    {a : Except AppError γ} (hk : ∀ t, Valid t → Evolves s t → (k (g t)).run.Settled rules a t) :
    (onPool (sql (fun s => .read (g s)) onError) >>= k).run.Settled rules a s :=
  fun t ht hst => ⟨commits_nil ht rfl, hk t ht hst⟩

theorem run_pool_bind (f : Store → Answer β) (onError : Err → Err)
    (k : Except Err β → Txn.Call Store Write LockKey γ) (s : Store) :
    (pool (sql f onError) >>= k).run s =
      (k ((f s).result.mapError onError)).run (Txn.applyAll (f s).writes s) := rfl

theorem run_onPool (f : Store → Answer β) (onError : Err → Err) (s : Store) :
    (onPool (sql f onError)).run.run s =
      (((f s).result.mapError onError).mapError translate, Txn.applyAll (f s).writes s) := rfl

/-- A statement on the pool that has the effect. Either it is the last one, or it has failed, and
still would, and the rest is one statement. -/
theorem refines_bind_pool {f : Store → Answer β} {onError : Err → Err}
    {k : Except Err β → Txn.Call Store Write LockKey γ} {spec : Store → γ × Store}
    (hspec : ∀ t, Valid t → Evolves s t → (pool (sql f onError) >>= k).run t = spec t)
    (h : ∀ t, Valid t → Evolves s t → (∃ a, k ((f t).result.mapError onError) = .ret a) ∨
      (f t).writes = [] ∧ (∀ u, Valid u → Evolves t u → f u = f t) ∧
        (k ((f t).result.mapError onError)).Single ∧
          ∀ a, k ((f t).result.mapError onError) ≠ .ret a) :
    (pool (sql f onError) >>= k).Refines rules (.once spec) s := by
  intro t ht hst
  have hrun := run_pool_bind f onError k t
  show Plan.Moves (fun p' => (k ((f t).result.mapError onError)).Refines rules p'
    (Txn.applyAll (f t).writes t)) _ t (Txn.applyAll (f t).writes t)
  rcases h t ht hst with ⟨a, ha⟩ | ⟨hwrites, hsame, hsingle, hret⟩
  · rw [ha] at hrun ⊢
    exact Txn.Call.moves_once ((hspec t ht hst).symm.trans hrun) rfl
  · refine .inl ⟨by rw [hwrites, Txn.applyAll_nil], hsingle.refines_once hret ?_⟩
    intro u hu htu
    rw [hwrites, Txn.applyAll_nil] at htu
    rw [← hspec u hu (hst.trans htu), run_pool_bind, hsame u hu htu, hwrites, Txn.applyAll_nil]

/-- A statement on the pool that is the last one. -/
theorem single_onPool (f : Store → Answer β) (onError : Err → Err) (g : β → γ) :
    (onPool (sql f onError) >>= fun b => pure (g b)).run.Single := by
  intro s c s' hact
  obtain ⟨rfl, rfl⟩ := Prod.mk.inj (Option.some.inj hact)
  cases hr : (f s).result with
  | error e => exact ⟨.error (translate (onError e)), by simp only [hr]; rfl⟩
  | ok b => exact ⟨.ok (g b), by simp only [hr]; rfl⟩

end

/-! ## Reads -/

section

variable {γ : Type} {s : Store} {spec : Store → Except AppError γ × Store}

theorem refines_bind_getAlert {id : UUID} {k : Alert → Svc γ}
    (hspec : ∀ t, Valid t → Evolves s t → (AlertRepository.get id >>= k).run.run t = spec t)
    (h : ∀ t a, Valid t → Evolves s t → a ∈ t.alerts →
      (∀ u, Valid u → Evolves t u → (k a).run.run u = spec u) →
        (k a).run.Refines rules (.once spec) t) :
    (AlertRepository.get id >>= k).run.Refines rules (.once spec) s := by
  refine refines_bind_read hspec (fun _ => row_writes _) ?_
  intro t ht hst a hr
  have hfind := row_result hr
  have ha := List.mem_of_find?_eq_some hfind
  obtain rfl : a.id = id := by simpa using List.find?_some hfind
  refine .inr ⟨?_, h t a ht hst ha⟩
  intro u hu htu
  refine ⟨a, ?_, rfl⟩
  rw [find?_of_mem hu.alert_ids (htu.alerts a ha)]
  rfl

theorem playbookRow_of_mem (hs : Valid s) {p : Playbook} (hp : p ∈ s.playbooks) :
    (s.playbooks.filter fun q => q.id = p.id).head? = some p := by
  rw [List.head?_filter]
  exact find?_of_mem hs.playbook_ids hp

/-- Of the answer, the playbook stays, and the rest of the request must not look at more. -/
theorem refines_bind_getPlaybook {id : UUID} {k : Playbook × List Version → Svc γ}
    (hspec : ∀ t, Valid t → Evolves s t → (PlaybookRepository.get id >>= k).run.run t = spec t)
    (hk : ∀ p versions versions', k (p, versions) = k (p, versions'))
    (h : ∀ t p versions, Valid t → Evolves s t → p ∈ t.playbooks → p.id = id →
      (∃ a, (k (p, versions)).run.Settled rules a t) ∨ ((∀ u, Valid u → Evolves t u →
        (k (p, versions)).run.run u = spec u) →
          (k (p, versions)).run.Refines rules (.once spec) t)) :
    (PlaybookRepository.get id >>= k).run.Refines rules (.once spec) s := by
  rw [PlaybookRepository.get, PlaybookRepository.getBody, onPool_bind, bind_assoc] at hspec ⊢
  refine refines_bind_read hspec (fun _ => row_writes _) ?_
  intro t ht hst p hr
  obtain ⟨hp, hid⟩ := List.mem_filter.mp (List.mem_of_mem_head? (row_result hr))
  obtain rfl : p.id = id := of_decide_eq_true hid
  refine .inr ⟨?_, ?_⟩
  · intro u hu htu
    refine ⟨p, ?_, rfl⟩
    rw [playbookRow_of_mem hu (htu.playbooks p hp)]
    rfl
  intro hrun
  rw [onPool_bind, bind_assoc] at hrun ⊢
  refine refines_bind_read hrun (fun _ => rfl) ?_
  intro u hu htu versions _
  refine (h u p versions hu (hst.trans htu) (htu.playbooks p hp) rfl).imp_right ?_
  exact fun hrefines => ⟨fun _ _ _ => ⟨_, rfl, hk p _ _⟩, hrefines⟩

theorem settled_bind_getPlaybook {p : Playbook} (hp : p ∈ s.playbooks)
    {k : Playbook × List Version → Svc γ} {a : Except AppError γ}
    (hk : ∀ t versions, Valid t → Evolves s t → (k (p, versions)).run.Settled rules a t) :
    (PlaybookRepository.get p.id >>= k).run.Settled rules a s := by
  rw [PlaybookRepository.get, PlaybookRepository.getBody, onPool_bind, bind_assoc]
  intro t ht hst
  simp only [playbookRow_of_mem ht (hst.playbooks p hp)]
  refine ⟨commits_nil ht rfl, ?_⟩
  show (onPool _ >>= k).run.Settled rules a t
  rw [onPool_bind, bind_assoc]
  exact settled_bind_read fun u hu htu => hk u _ hu (hst.trans htu)

theorem getVersion_bind (id : UUID) (k : Definition → Svc γ) :
    PlaybookRepository.getVersion id >>= k =
      onPool (PlaybookRepository.selectVersion id) >>= fun v =>
        onPool (PlaybookRepository.selectNodes id) >>= fun nodes =>
          onPool (PlaybookRepository.selectEdges id) >>= fun edges =>
            k ⟨v, ⟨v.rootNodeID, nodes, edges⟩⟩ := by
  simp only [PlaybookRepository.getVersion, PlaybookRepository.loadDefinition,
    PlaybookRepository.loadGraph, onPool_bind, bind_assoc]
  rfl

/-- Of a version that is not published, only the row of the answer is known. -/
theorem refines_bind_getVersion {id : UUID} {k : Definition → Svc γ}
    (hspec : ∀ t, Valid t → Evolves s t →
      (PlaybookRepository.getVersion id >>= k).run.run t = spec t)
    (hunpublished : ∀ t v, Valid t → Evolves s t → v ∈ t.versions → v.id = id →
      v.status ≠ .published → ∃ a, ∀ u g, Valid u → Evolves t u →
        (k ⟨v, g⟩).run.Settled rules a u)
    (hpublished : ∀ t v, Valid t → Evolves s t → v ∈ t.versions → v.id = id →
      v.status = .published → (∀ u, Valid u → Evolves t u →
        (k ⟨v, t.graphOf v⟩).run.run u = spec u) →
        (k ⟨v, t.graphOf v⟩).run.Refines rules (.once spec) t) :
    (PlaybookRepository.getVersion id >>= k).run.Refines rules (.once spec) s := by
  rw [getVersion_bind] at hspec ⊢
  refine refines_bind_read hspec (fun _ => row_writes _) ?_
  intro t ht hst v hr
  obtain ⟨hv, rfl⟩ := mem_versionRows.mp (List.mem_of_mem_head? (row_result hr))
  by_cases hp : v.status = .published
  · refine .inr ⟨?_, ?_⟩
    · intro u hu htu
      refine ⟨v, ?_, rfl⟩
      rw [versionRows_of_mem hu (htu.published hv hp)]
      rfl
    intro hrun
    have hsame : ∀ u, Evolves t u → u.nodesOf v.id = t.nodesOf v.id ∧
        u.edgesOf v.id = t.edgesOf v.id := by
      intro u htu
      have hframe := htu.frozen v hv hp
      simp only [Store.nodesOf, Store.edgesOf, hframe, and_self]
    refine refines_bind_read hrun (fun _ => rfl) ?_
    intro u hu htu nodes hnodes
    obtain rfl := Except.ok.inj hnodes
    refine .inr ⟨fun w _ huw => ⟨_, rfl, ?_⟩, ?_⟩
    · rw [(hsame w (htu.trans huw)).1, (hsame u htu).1]
    intro hrun
    refine refines_bind_read hrun (fun _ => rfl) ?_
    intro w hw huw edges hedges
    obtain rfl := Except.ok.inj hedges
    refine .inr ⟨fun x _ hwx => ⟨_, rfl, ?_⟩, ?_⟩
    · rw [(hsame x ((htu.trans huw).trans hwx)).2, (hsame w (htu.trans huw)).2]
    have htw := htu.trans huw
    have hgraph : w.graphOf v =
        ⟨v.rootNodeID, sortNodes (u.nodesOf v.id), sortEdgeRows (w.edgesOf v.id)⟩ := by
      rw [Store.graphOf, (hsame w htw).1, (hsame u htu).1]
    rw [← hgraph]
    exact hpublished w v hw (hst.trans htw) (htw.published hv hp) rfl hp
  · obtain ⟨a, ha⟩ := hunpublished t v ht hst hv rfl hp
    refine .inl ⟨a, settled_bind_read fun u _ htu => settled_bind_read fun w hw huw => ?_⟩
    exact ha w _ hw (htu.trans huw)

end

/-! ## Requests that are atomic -/

section

variable {s : Store}

theorem guarded_cons {β : Type} (b : Bool) (e : Err) (violations : List (Bool × Err))
    (a : Answer β) :
    Answer.guarded ((b, e) :: violations) a = if b then .fail e else .guarded violations a := by
  cases b <;> rfl

/-- An insert that meets an alert with its external id will always meet it. -/
theorem insertAlert_cases (id : UUID) (now : Time) (input : NewAlert) : ∃ f,
    AlertRepository.insertAlert id now input = sql f (fun err => err) ∧ ∀ t,
      (∃ a, (f t).result = .ok a) ∨ (∃ e, f t = .fail e ∧ e ≠ .noRows) ∨
        ∃ x, input.externalID = some x ∧ ∀ u, Evolves t u → f u = .fail .noRows := by
  refine ⟨_, rfl, fun t => ?_⟩
  simp only [guarded_cons]
  split
  · exact .inr (.inl ⟨.other, rfl, nofun⟩)
  split
  · rename_i htaken
    obtain ⟨x, hx, htaken⟩ := (Option.any_eq_true _ _).mp htaken
    refine .inr (.inr ⟨x, hx, fun u htu => if_pos ?_⟩)
    obtain ⟨a, ha, hax⟩ := List.any_eq_true.mp htaken
    rw [hx]
    exact List.any_eq_true.mpr ⟨a, htu.alerts a ha, hax⟩
  split
  · exact .inr (.inl ⟨.pg .uniqueViolation "alerts_pkey", rfl, nofun⟩)
  · exact .inl ⟨_, rfl⟩

/-- Inserting an alert, or meeting the one that has its external id: that one stays. -/
theorem create_refines (id : UUID) (now : Time) (input : NewAlert) :
    (AlertRepository.create id now input).run.Refines rules
      (.once (AlertRepository.create id now input).run.run) s := by
  obtain ⟨f, hinsert, hcases⟩ := insertAlert_cases id now input
  unfold AlertRepository.create
  rw [hinsert]
  refine refines_bind_pool (fun _ _ _ => rfl) ?_
  intro t ht hst
  rcases hcases t with ⟨a, ha⟩ | ⟨e, he, hne⟩ | ⟨x, hx, hmeets⟩
  · rw [ha]
    exact .inl ⟨_, rfl⟩
  · rw [he]
    refine .inl ⟨.error (translate e), ?_⟩
    cases e <;> first | rfl | exact absurd rfl hne
  · rw [hx, hmeets t (Evolves.refl t)]
    refine .inr ⟨rfl, fun u _ htu => hmeets u htu, ?_, fun _ h => nomatch h⟩
    intro u c u' hact
    obtain ⟨rfl, rfl⟩ := Prod.mk.inj (Option.some.inj hact)
    exact ⟨_, rfl⟩

theorem createAlert_refines (id : UUID) (now : Time) (input : NewAlert) :
    (AlertService.create id now input).run.Refines rules
      (AlertService.create id now input).run.whole s := by
  unfold AlertService.create
  split
  · rfl
  split
  · rfl
  split
  · rfl
  split
  · rfl
  exact create_refines id now input

theorem getPlaybook_refines (id : UUID) : (PlaybookRepository.get id).run.Refines rules
    (.once (PlaybookRepository.get id).run.run) s := by
  rw [PlaybookRepository.get, PlaybookRepository.getBody, onPool_bind]
  refine refines_bind_read (fun _ _ _ => rfl) (fun _ => row_writes _) ?_
  intro t ht hst p hr
  have hp := List.mem_filter.mp (List.mem_of_mem_head? (row_result hr))
  obtain rfl : p.id = id := of_decide_eq_true hp.2
  refine .inr ⟨?_, ?_⟩
  · intro u hu htu
    refine ⟨p, ?_, rfl⟩
    rw [playbookRow_of_mem hu (htu.playbooks p hp.1)]
    rfl
  intro hrun
  rw [onPool_bind] at hrun ⊢
  exact (single_onPool _ _ _).refines_once (fun _ h => nomatch h) hrun

/-- The reason that `start` gives for a version that is not published does not depend on the
graph. -/
theorem startFrom_unpublished {v : Version} (hp : v.status ≠ .published) (now : Time)
    (a : Alert) (owner : Playbook) :
    ∃ e, ∀ g, InvestigationService.startFrom v.id now a ⟨v, g⟩ owner = .error e := by
  by_cases htype : owner.alertType = a.alertType
  · refine ⟨InvestigationService.noRoot v.id ⟨v, ⟨none, [], []⟩⟩, fun g => ?_⟩
    rw [InvestigationService.startFrom, if_neg (not_not.mpr htype)]
    cases InvestigationService.usableRoot ⟨v, g⟩ with
    | none => rfl
    | some root =>
      simp only [InvestigationService.noRoot, Investigation.start, if_pos hp, Except.map]
  · exact ⟨_, fun g => if_pos htype⟩

theorem start_refines (id : UUID) (now : Time) (alertID versionID : UUID) :
    (InvestigationService.start id now alertID versionID).run.Refines rules
      (.once (InvestigationService.start id now alertID versionID).run.run) s := by
  refine refines_bind_getAlert (fun _ _ _ => rfl) ?_
  intro t a ht hst ha hrun
  refine refines_bind_getVersion hrun ?_ ?_
  · rintro u v hu htu hv rfl hp
    obtain ⟨owner, howner, hownerid⟩ := hu.version_playbook v hv
    obtain ⟨e, hstart⟩ := startFrom_unpublished hp now a owner
    refine ⟨.error e, fun w g hw huw => ?_⟩
    rw [← hownerid]
    refine settled_bind_getPlaybook (huw.playbooks owner howner) fun x versions _ _ => ?_
    simp only [hstart]
    exact fun _ _ _ => rfl
  · intro u v hu htu hv hid hp hrun
    refine refines_bind_getPlaybook hrun (fun _ _ _ => rfl) ?_
    intro w owner versions _ _ _ _
    cases hstart : InvestigationService.startFrom versionID now a ⟨v, u.graphOf v⟩ owner with
    | error e =>
      simp only [hstart]
      exact .inl ⟨.error e, fun _ _ _ => rfl⟩
    | ok r =>
      simp only [hstart]
      exact .inr fun hrun => (single_onPool _ _ _).refines_once (fun _ h => nomatch h) hrun

/-- What is read after the snapshot is settled by it. -/
theorem viewed_refines {β : Type} {k : Investigation × List Step → Svc β}
    {view : Store → Investigation → Version → Alert → Node → List Step → β} (id : UUID)
    (hk : ReadsOn (fun t u => u = t) k view) :
    (InvestigationRepository.getWithSteps id >>= k).run.Refines rules
      (.once (InvestigationRepository.getWithSteps id >>= k).run.run) s := by
  intro t ht _
  have hsettled : ∃ a, (ExceptT.bindCont k (((InvestigationRepository.getWithStepsBody id).run.read
      t).mapError translate)).Settled rules a t := by
    rcases read_getWithSteps ht id with ⟨-, hr⟩ | ⟨i, v, a, n, steps, -, hshown, hr⟩
    · rw [hr]
      exact ⟨_, fun _ _ _ => rfl⟩
    · rw [hr]
      exact ⟨_, hk t t i v a n steps ht ht (Evolves.refl t) hshown⟩
  obtain ⟨a, ha⟩ := hsettled
  exact Txn.Call.moves_once (ha.run ht) (ha.refines ht)

theorem get_refines (id : UUID) : (InvestigationService.get id).run.Refines rules
    (.once (InvestigationService.get id).run.run) s :=
  viewed_refines id (get_readsOn fun _ => rfl)

theorem report_refines (id : UUID) : (InvestigationService.report id).run.Refines rules
    (.once (InvestigationService.report id).run.run) s :=
  viewed_refines id (report_readsOn fun _ => rfl)

end

/-! ## Requests that are not -/

/-- The row first, and of a version that is not published then each table as it is by then. -/
def versionPlan (versionID : UUID) : Plan Store (Except AppError Definition) :=
  .step (fun s => ((s.versionRows versionID).head?.map fun v => (v, s.graphOf v), s)) fun
    | none => .ret (.error (.notFound "playbook version"))
    | some (v, g) =>
      if v.status = .published then .ret (.ok ⟨v, g⟩)
      else
        .step (fun s => (sortNodes (s.nodesOf versionID), s)) fun nodes =>
          .step (fun s => (sortEdgeRows (s.edgesOf versionID), s)) fun edges =>
            .ret (.ok ⟨v, ⟨v.rootNodeID, nodes, edges⟩⟩)

/-- The decision first, and if it is accepted a look at the investigation. -/
def Attempt.plan (a : Attempt) : Plan Store (Except AppError InvestigationService.State) :=
  match InvestigationService.validateDecision a.input with
  | .error e => .ret (.error e)
  | .ok () =>
    .step a.call.run.run fun
      | .error e => .ret (.error e)
      | .ok _ => .once (InvestigationService.get a.investigationID).run.run

/-- The atomic steps of a request. -/
def Operation.plan : Operation → Plan Store (Except AppError Reply)
  | .getVersion v => (versionPlan v).map (Except.map .definition)
  | .submit a => a.plan.map (Except.map .state)
  | op => op.call.whole

section

variable {s : Store}

theorem getVersion_refines (versionID : UUID) :
    (PlaybookRepository.getVersion versionID).run.Refines rules (versionPlan versionID) s := by
  rw [← bind_pure (PlaybookRepository.getVersion versionID), getVersion_bind]
  intro t ht hst
  cases hrow : (t.versionRows versionID).head? with
  | none =>
    simp only [hrow]
    refine Plan.moves_step (by rw [hrow]; rfl) ?_
    rfl
  | some v =>
    obtain ⟨hv, rfl⟩ := mem_versionRows.mp (List.mem_of_mem_head? hrow)
    simp only [hrow]
    refine Plan.moves_step (by rw [hrow]; rfl) ?_
    by_cases hp : v.status = .published
    · simp only [Option.map_some, if_pos hp]
      refine Txn.Call.Settled.refines ?_ ht
      refine settled_bind_read fun u _ htu => settled_bind_read fun w _ huw => ?_
      have hframe := htu.frozen v hv hp
      have hframe' := (htu.trans huw).frozen v hv hp
      intro x _ _
      simp only [Store.graphOf, Store.nodesOf, Store.edgesOf, hframe, hframe']
      rfl
    · simp only [Option.map_some, if_neg hp]
      exact fun u _ _ => Plan.moves_step rfl fun w _ _ => Plan.moves_step rfl rfl

theorem submit_refines (a : Attempt) : a.submit.run.Refines rules a.plan s := by
  unfold Attempt.submit InvestigationService.submitDecision Attempt.plan
  cases InvestigationService.validateDecision a.input with
  | error e => rfl
  | ok =>
    intro t _ _
    have hrun : a.call.run.run t = _ := run_inTx (InvestigationRepository.applyDecisionBody a.stepID
      a.now a.txNow a.investigationID a.input) t
    rcases hbody : (InvestigationRepository.applyDecisionBody a.stepID a.now a.txNow
      a.investigationID a.input).run.run t [] with ⟨e | d, ws⟩
    · rw [hbody] at hrun
      dsimp only
      refine Plan.moves_step hrun ?_
      rfl
    · rw [hbody] at hrun
      dsimp only
      refine Plan.moves_step hrun ?_
      exact get_refines a.investigationID

theorem Operation.refines (op : Operation) : op.call.Refines rules op.plan s := by
  have honce : ∀ {β : Type} (f : β → Reply) {x : Svc β},
      x.run.Refines rules (.once x.run.run) s → (∀ a, x.run ≠ .ret a) →
        (reply f x).Refines rules (reply f x).whole s := by
    intro β f x hx hret
    rw [← Txn.Call.whole_of_ne hret] at hx
    exact hx.whole_map (Except.map f)
  cases op with
  | createPlaybook p v now input => exact (single_inTx _ _).refines s
  | submitPlaybook p v now input => exact (single_checked _ _ _).refines s
  | createVersion p cloneFrom v fresh now => exact (single_inTx _ _).refines s
  | replaceGraph v g => exact (single_inTx _ _).refines s
  | submitGraph v g => exact (single_checked _ _ _).refines s
  | publish v now => exact (single_inTx _ _).refines s
  | getPlaybook id => exact honce _ (getPlaybook_refines id) fun _ h => nomatch h
  | getVersion v => exact (getVersion_refines v).map (Except.map Reply.definition)
  | createAlert id now input =>
    exact (createAlert_refines id now input).whole_map (Except.map fun r => Reply.alert r.1 r.2)
  | start id now alertID v => exact honce _ (start_refines id now alertID v) fun _ h => nomatch h
  | decide a => exact (single_inTx _ _).refines s
  | submit a => exact (submit_refines a).map (Except.map Reply.state)
  | getInvestigation id => exact honce _ (get_refines id) fun _ h => nomatch h
  | report id => exact honce _ (report_refines id) fun _ h => nomatch h

end

/-! ## Effects -/

section

variable {β γ : Type} {s : Store}

/-- Alone, the request changes nothing unless it succeeds. -/
def Clean (x : Svc β) (s : Store) : Prop := (x.run.run s).2 = s ∨ ∃ b, (x.run.run s).1 = .ok b

/-- Alone, a request that guarantees nothing more than that the state may stay leaves it. -/
theorem run_of_keeps {x : Svc β} {Q : Except AppError β → Store → Prop}
    (h : ∀ G : Store → Store → Prop, (∀ t, G t t) → x.run.Keeps rules G Q s) (hs : Valid s) :
    (x.run.run s).2 = s :=
  (h (fun t u => u = t) fun _ => rfl).run_guarantee hs (fun _ => rfl)
    fun _ _ _ htu huv => huv.trans htu

theorem run_bind_svc (x : Svc β) (k : β → Svc γ) (s : Store) :
    (x >>= k).run.run s = match x.run.run s with
      | (.ok b, t) => (k b).run.run t
      | (.error e, t) => (.error e, t) := by
  rw [ExceptT.run_bind, Txn.Call.run_bind]
  rcases x.run.run s with ⟨e | b, t⟩ <;> rfl

theorem clean_bind {x : Svc β} {k : β → Svc γ} (hx : (x.run.run s).2 = s)
    (hk : ∀ b, Clean (k b) s) : Clean (x >>= k) s := by
  rw [Clean, run_bind_svc]
  rcases hr : x.run.run s with ⟨e | b, t⟩
  · rw [hr] at hx
    exact .inl hx
  · rw [hr] at hx
    obtain rfl : t = s := hx
    exact hk b

theorem clean_inTx (body : Db β) : Clean (inTx body) s := by
  rw [Clean, run_inTx]
  rcases body.run.run s [] with ⟨e | b, ws⟩
  · exact .inl rfl
  · exact .inr ⟨b, rfl⟩

theorem clean_checked {check : Except AppError Unit} {x : Svc β} (hx : Clean x s) :
    Clean (PlaybookService.checked check x) s := by
  cases check with
  | error e => exact .inl rfl
  | ok => exact hx

theorem clean_onPool {f : Store → Answer β} {onError : Err → Err} (g : β → γ)
    (hf : ∀ t e, (f t).result = .error e → (f t).writes = []) :
    Clean (onPool (sql f onError) >>= fun b => pure (g b)) s := by
  rw [Clean, run_bind_svc, run_onPool]
  cases hr : (f s).result with
  | error e =>
    rw [hf s e hr]
    exact .inl rfl
  | ok b => exact .inr ⟨g b, rfl⟩

theorem guarded_writes {violations : List (Bool × Err)} {a : Answer β} {b : β} {e : Err}
    (hb : a.result = .ok b) (he : (Answer.guarded violations a).result = .error e) :
    (Answer.guarded violations a).writes = [] := by
  rcases Answer.guarded_cases violations a with ⟨v, -, -, hfails⟩ | ⟨-, hpasses⟩
  · rw [hfails]
    rfl
  · rw [hpasses, hb] at he
    cases he

theorem clean_create (id : UUID) (now : Time) (input : NewAlert) :
    Clean (AlertRepository.create id now input) s := by
  obtain ⟨f, hinsert, hcases⟩ := insertAlert_cases id now input
  rw [Clean, AlertRepository.create, hinsert, ExceptT.run_mk, run_pool_bind]
  rcases hcases s with ⟨a, ha⟩ | ⟨e, he, hne⟩ | ⟨x, hx, hmeets⟩
  · rw [ha]
    exact .inr ⟨_, rfl⟩
  · rw [he]
    refine .inl ?_
    cases e <;> first | rfl | exact absurd rfl hne
  · rw [hx, hmeets s (Evolves.refl s)]
    refine .inl ?_
    show Txn.applyAll (Answer.row _).writes s = s
    rw [row_writes]
    rfl

theorem clean_createAlert (id : UUID) (now : Time) (input : NewAlert) :
    Clean (AlertService.create id now input) s := by
  unfold AlertService.create
  split
  · exact .inl rfl
  split
  · exact .inl rfl
  split
  · exact .inl rfl
  split
  · exact .inl rfl
  exact clean_create id now input

theorem clean_start (hs : Valid s) (id : UUID) (now : Time) (alertID versionID : UUID) :
    Clean (InvestigationService.start id now alertID versionID) s := by
  refine clean_bind (run_of_keeps (fun _ hG => keeps_getAlert hG alertID) hs) fun a => ?_
  refine clean_bind (run_of_keeps (fun _ hG => keeps_getVersion hs hG versionID) hs) fun d => ?_
  refine clean_bind (run_of_keeps (fun _ hG => keeps_getPlaybook hs hG _) hs) fun r => ?_
  dsimp only
  split
  · exact .inl rfl
  · exact clean_onPool _ fun t e he => guarded_writes rfl he

theorem effective_whole {f : β → Reply} {x : Svc β} (hx : ∀ t, Valid t → Clean x t) :
    (reply f x).whole.Effective rules (fun r => ∃ answer, r = .ok answer) s := by
  by_cases hret : ∃ r, reply f x = .ret r
  · obtain ⟨r, hr⟩ := hret
    rw [hr]
    trivial
  · rw [Txn.Call.whole_of_ne (not_exists.mp hret)]
    refine Plan.effective_once fun t ht => ?_
    rw [run_reply]
    refine (hx t ht).imp_right ?_
    rintro ⟨b, hb⟩
    rw [hb]
    exact ⟨f b, rfl⟩

/-- After an accepted decision its investigation can be looked at. -/
theorem delivers_get {a : Attempt} {d : DecisionResult} {ws : List Write}
    (h : Accepts s a d ws) :
    (Plan.once (InvestigationService.get a.investigationID).run.run).Delivers rules
      (fun r => ∃ answer, r = .ok answer) (Txn.applyAll ws s) := by
  intro t ht hst
  obtain ⟨row, hrow, -⟩ := h.recorded
  obtain ⟨i, hi, hid⟩ := Valid.owner ht ((hst.steps _).subset hrow)
  obtain ⟨v, al, n, steps, -, hrun⟩ := run_get ht hi
  rw [← hid, hrun]
  exact ⟨rfl, _, rfl⟩

theorem effective_submit (a : Attempt) :
    a.plan.Effective rules (fun r => ∃ answer, r = .ok answer) s := by
  unfold Attempt.plan
  split
  · trivial
  intro t ht _
  rcases a.run_cases ht with ⟨d, ws, haccepts, hrun⟩ | ⟨e, -, hrun⟩
  · rw [hrun]
    exact .inr (delivers_get haccepts)
  · rw [hrun]
    exact .inl ⟨rfl, trivial⟩

theorem effective_getVersion (versionID : UUID) :
    (versionPlan versionID).Effective rules (fun r => ∃ answer, r = .ok answer) s := by
  intro t _ _
  refine .inl ⟨rfl, ?_⟩
  dsimp only
  split
  · trivial
  split
  · trivial
  · exact fun u _ _ => .inl ⟨rfl, fun w _ _ => .inl ⟨rfl, trivial⟩⟩

theorem Operation.effective (op : Operation) :
    op.plan.Effective rules (fun r => ∃ answer, r = .ok answer) s := by
  have hmap : ∀ {β : Type} (f : β → Reply) (r : Except AppError β), (∃ b, r = .ok b) →
      ∃ answer, r.map f = .ok answer := by
    rintro β f _ ⟨b, rfl⟩
    exact ⟨f b, rfl⟩
  cases op with
  | createPlaybook p v now input => exact effective_whole fun _ _ => clean_inTx _
  | submitPlaybook p v now input => exact effective_whole fun _ _ => clean_checked (clean_inTx _)
  | createVersion p cloneFrom v fresh now => exact effective_whole fun _ _ => clean_inTx _
  | replaceGraph v g => exact effective_whole fun _ _ => clean_inTx _
  | submitGraph v g => exact effective_whole fun _ _ => clean_checked (clean_inTx _)
  | publish v now => exact effective_whole fun _ _ => clean_inTx _
  | getPlaybook id =>
    exact effective_whole fun t ht => .inl (run_of_keeps (fun _ hG => keeps_getPlaybook ht hG id) ht)
  | getVersion v => exact (effective_getVersion v).map _ (hmap _)
  | createAlert id now input => exact effective_whole fun _ _ => clean_createAlert id now input
  | start id now alertID v => exact effective_whole fun _ ht => clean_start ht id now alertID v
  | decide a => exact effective_whole fun _ _ => clean_inTx _
  | submit a => exact (effective_submit a).map _ (hmap _)
  | getInvestigation id =>
    exact effective_whole fun t ht => .inl (run_of_keeps (fun _ hG => get_keeps ht hG id) ht)
  | report id =>
    exact effective_whole fun t ht => .inl (run_of_keeps (fun _ hG => report_keeps ht hG id) ht)

end

end Interbellum
