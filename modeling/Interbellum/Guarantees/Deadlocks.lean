import Interbellum.Invariant.LockRanks
import Interbellum.Server.Operations

/-!
# Row locks do not deadlock

Clients that share the database wait for one another's row locks, for those that they ask for
and for those that the checks of foreign keys take. They ask for them in one order, so that
they never wait in a circle. Graph ids are drawn by the clients; they are assumed not to
collide between versions.

* `Operation.orders`: every operation asks for its locks in the order of the hierarchy.
* `lock_waits_acyclic`: in no reachable state do clients wait in a circle.
-/

namespace Interbellum

open PlaybookRepository InvestigationRepository
open Txn (applyAll applyAll_nil)

/-! ## Requests -/

section

variable {β γ : Type} {owner : Owner} {s : Store}

/-- The program asks for its locks in order, and leaves graph ids with their versions. -/
abbrev Ordered (owner : Owner) {α : Type} (c : Txn.Call Store Write LockKey α) : Prop :=
  c.Orders rules (hierarchy owner) (Store.OwnedBy owner)

theorem orders_inTx {body : Db β} (h : ∀ s, Valid s → s.OwnedBy owner →
    body.run.Orders (hierarchy owner s) s (fun _ ws _ => (applyAll ws s).OwnedBy owner) [] []) :
    Ordered owner (inTx body).run := ⟨h, fun _ => trivial⟩

/-- The rule for one statement on the pool. -/
theorem orders_pool_sql {f : Store → Answer β} {onError : Err → Err}
    (h : ∀ s, s.OwnedBy owner → (hierarchy owner s).InOrder [] (f s).locks ∧
      (applyAll (f s).writes s).OwnedBy owner) : Ordered owner (pool (sql f onError)) :=
  fun s _ howned => ⟨(h s howned).1, (h s howned).2, trivial⟩

theorem orders_pool_quiet {f : Store → Answer β} {onError : Err → Err} (h : ∀ s, (f s).Quiet) :
    Ordered owner (pool (sql f onError)) := by
  refine orders_pool_sql ?_
  intro s howned
  rw [(h s).1, (h s).2]
  exact ⟨trivial, howned⟩

theorem orders_pool_bind {x : Db β} {k : β → Db γ} (hx : Ordered owner (pool x))
    (hk : ∀ b, Ordered owner (pool (k b))) : Ordered owner (pool (x >>= k)) := by
  rw [pool_bind]
  exact .bind_except hx hk

theorem orders_onPool {body : Db β} (h : Ordered owner (pool body)) :
    Ordered owner (onPool body).run := h.map

theorem orders_getAlert (id : UUID) : Ordered owner (AlertRepository.get id).run :=
  orders_onPool (orders_pool_quiet fun _ => Answer.quiet_row _)

theorem orders_getVersion (v : UUID) : Ordered owner (PlaybookRepository.getVersion v).run := by
  refine orders_onPool (orders_pool_bind (orders_pool_quiet fun _ => Answer.quiet_row _) ?_)
  intro version
  refine orders_pool_bind (orders_pool_bind (orders_pool_quiet fun _ => ⟨rfl, rfl⟩) ?_)
    fun _ => trivial
  intro nodes
  exact orders_pool_bind (orders_pool_quiet fun _ => ⟨rfl, rfl⟩) fun _ => trivial

theorem orders_getPlaybook (id : UUID) : Ordered owner (PlaybookRepository.get id).run := by
  refine orders_onPool (orders_pool_bind (orders_pool_quiet fun _ => Answer.quiet_row _) ?_)
  intro pb
  exact orders_pool_bind (orders_pool_quiet fun _ => ⟨rfl, rfl⟩) fun _ => trivial

theorem orders_getWithSteps (id : UUID) :
    Ordered owner (InvestigationRepository.getWithSteps id).run := fun _ => trivial

theorem orders_createAlert (id : UUID) (now : Time) (input : NewAlert) :
    Ordered owner (AlertService.create id now input).run := by
  have hinsert : Ordered owner (pool (AlertRepository.insertAlert id now input)) := by
    refine orders_pool_sql ?_
    intro s howned
    refine Answer.of_guarded (P := fun a => (hierarchy owner s).InOrder [] a.locks ∧
      (applyAll a.writes s).OwnedBy owner) (fun _ => ⟨trivial, howned⟩) ?_
    intro _
    refine ⟨⟨Txn.Hierarchy.allows_above rfl fun _ hl => (List.not_mem_nil hl).elim, ?_⟩,
      howned.of_eq rfl rfl⟩
    cases input.externalID with
    | none => trivial
    | some x =>
      refine ⟨Txn.Hierarchy.allows_above rfl ?_, trivial⟩
      intro l hl _
      rw [List.mem_singleton.mp hl]
      exact Nat.lt_succ_self 1
  unfold AlertService.create
  split
  · trivial
  split
  · trivial
  split
  · trivial
  split
  · trivial
  · refine Txn.Call.Orders.bind hinsert ?_
    rintro (e | a)
    · cases e with
      | noRows =>
        cases input.externalID with
        | none => trivial
        | some x =>
          exact Txn.Call.Orders.bind (orders_onPool (orders_pool_quiet fun _ =>
            Answer.quiet_row _)) fun _ => trivial
      | _ => trivial
    · trivial

/-- A start locks the version before the node it points to. -/
theorem orders_insertInvestigation (id : UUID) (inv : Investigation) :
    Ordered owner (pool (insertInvestigation id inv)) := by
  refine orders_pool_sql ?_
  intro s howned
  refine Answer.of_guarded (P := fun a => (hierarchy owner s).InOrder [] a.locks ∧
    (applyAll a.writes s).OwnedBy owner) (fun _ => ⟨trivial, howned⟩) ?_
  intro hchecks
  simp only [List.forall_mem_cons, Bool.not_eq_false'] at hchecks
  obtain ⟨-, -, -, -, -, hnode, -⟩ := hchecks
  have hversion : 5 ≤ LockKey.rank s (.version inv.playbookVersionID) := (rank_version s _).1
  refine ⟨⟨?_, ?_, ?_, ?_, trivial⟩, howned.of_eq rfl rfl⟩
  · exact Txn.Hierarchy.allows_above rfl fun _ hl => (List.not_mem_nil hl).elim
  · exact Txn.Hierarchy.allows_above rfl (by simp [hierarchy, LockKey.rank])
  · refine Txn.Hierarchy.allows_above rfl ?_
    intro h hh _
    refine Nat.lt_of_lt_of_le ?_ hversion
    simp only [List.cons_append, List.nil_append, List.mem_cons, List.not_mem_nil, or_false] at hh
    rcases hh with rfl | rfl <;> simp [hierarchy, LockKey.rank]
  · refine Txn.Hierarchy.allows_under
      (congrArg (some ∘ LockKey.version) (owned_of_any howned hnode)) (m := .keyShare) ?_ (.inl rfl)
    simp

theorem orders_start (id : UUID) (now : Time) (alertID versionID : UUID) :
    Ordered owner (InvestigationService.start id now alertID versionID).run := by
  refine .bind_except (orders_getAlert alertID) fun a => ?_
  refine .bind_except (orders_getVersion versionID) fun d => ?_
  refine .bind_except (orders_getPlaybook _) fun (pb, _) => ?_
  cases hstart : InvestigationService.startFrom versionID now a d pb with
  | error e =>
    simp only [hstart]
    trivial
  | ok r =>
    simp only [hstart]
    exact .bind_except (orders_onPool (orders_insertInvestigation id r.1)) fun _ => trivial

theorem orders_attempt (a : Attempt) : Ordered owner a.call.run :=
  orders_inTx fun _ hs howned => orders_applyDecisionBody hs howned a.stepID a.now a.txNow a.input

theorem orders_getState (id : UUID) : Ordered owner (InvestigationService.get id).run := by
  refine .bind_except (orders_getWithSteps id) fun shown => ?_
  refine .bind_except (orders_getAlert _) fun a => ?_
  refine .bind_except (orders_getVersion _) fun d => ?_
  split <;> trivial

theorem orders_report (id : UUID) : Ordered owner (InvestigationService.report id).run :=
  .bind_except (orders_getWithSteps id) fun _ => .bind_except (orders_getAlert _) fun _ =>
    .bind_except (orders_getVersion _) fun _ => trivial

theorem orders_submit (a : Attempt) : Ordered owner a.submit.run := by
  unfold Attempt.submit InvestigationService.submitDecision
  split
  · trivial
  · exact .bind_except (orders_attempt a) fun _ => orders_getState a.investigationID

theorem orders_request {check : Except AppError Unit} {k : Svc β} (h : Ordered owner k.run) :
    Ordered owner (PlaybookService.checked check k).run := by
  cases check with
  | error e => trivial
  | ok => exact h

theorem orders_create {v : UUID} {input : NewPlaybook} (hgraph : input.graph.OwnedBy owner v)
    (p : UUID) (now : Time) : Ordered owner (PlaybookRepository.create p v now input).run :=
  orders_inTx fun _ _ howned => orders_createBody howned now hgraph

theorem orders_replaceGraph {v : UUID} {g : Graph} (hgraph : g.OwnedBy owner v) :
    Ordered owner (PlaybookRepository.replaceGraph v g).run :=
  orders_inTx fun _ hs howned => orders_replaceGraphBody hs howned hgraph

end

/-! ## Operations -/

/-- The operation writes the graph `g` to version `v`. A copy may be one of any graph. -/
def Operation.Supplies (v : UUID) (g : Graph) : Operation → Prop
  | .createPlaybook _ w _ input | .submitPlaybook _ w _ input => w = v ∧ input.graph = g
  | .replaceGraph w g' | .submitGraph w g' => w = v ∧ g' = g
  | .createVersion _ _ w fresh _ => w = v ∧ ∃ src, cloneGraph fresh src = g
  | _ => False

theorem Operation.orders {owner : Owner} (op : Operation)
    (h : ∀ v g, op.Supplies v g → g.OwnedBy owner v) : Ordered owner op.call := by
  cases op with
  | createPlaybook p v now input => exact (orders_create (h v _ ⟨rfl, rfl⟩) p now).map
  | submitPlaybook p v now input =>
    exact (orders_request (orders_create (h v _ ⟨rfl, rfl⟩) p now)).map
  | createVersion p cloneFrom v fresh now =>
    exact (orders_inTx fun _ _ howned => orders_createVersionBody howned cloneFrom now
      fun src => h v _ ⟨rfl, src, rfl⟩).map
  | replaceGraph v g => exact (orders_replaceGraph (h v g ⟨rfl, rfl⟩)).map
  | submitGraph v g => exact (orders_request (orders_replaceGraph (h v g ⟨rfl, rfl⟩))).map
  | publish v now =>
    exact (orders_inTx fun _ hs howned => orders_publishBody hs howned now).map
  | getPlaybook id => exact (orders_getPlaybook id).map
  | getVersion v => exact (orders_getVersion v).map
  | createAlert id now input => exact (orders_createAlert id now input).map
  | start id now alertID v => exact (orders_start id now alertID v).map
  | decide a => exact (orders_attempt a).map
  | submit a => exact (orders_submit a).map
  | getInvestigation id => exact (orders_getState id).map
  | report id => exact (orders_report id).map

/-! ## Graph ids -/

section

variable {ι : Type} {s : Store} {ops : ι → Operation}

/-- A graph that version `v` has, or that a client has for it. -/
inductive Supplied (s : Store) (ops : ι → Operation) (v : UUID) : Graph → Prop
  | stored {w : Version} (hw : w ∈ s.versions) (hid : w.id = v) : Supplied s ops v (s.graphOf w)
  | client {k : ι} {g : Graph} (h : (ops k).Supplies v g) : Supplied s ops v g

/-- Whoever supplies the graphs of two versions has drawn different ids for them. -/
def NoCollisions (s : Store) (ops : ι → Operation) : Prop :=
  ∀ v v' g g', Supplied s ops v g → Supplied s ops v' g' → v ≠ v' →
    (∀ n ∈ g.nodes, ∀ n' ∈ g'.nodes, n.id ≠ n'.id) ∧
      ∀ e ∈ g.edges, ∀ e' ∈ g'.edges, e.id ≠ e'.id

/-- What the graphs of different versions do not share belongs to one version. -/
private theorem exists_owner {P : UUID → UUID → Prop}
    (h : ∀ v v' id, P v id → P v' id → v = v') :
    ∃ owner : UUID → UUID, ∀ v id, P v id → owner id = v := by
  have hone : ∀ id, ∃ v, ∀ v', P v' id → v = v' := by
    intro id
    by_cases hex : ∃ v, P v id
    · obtain ⟨v, hv⟩ := hex
      exact ⟨v, fun v' hv' => h v v' id hv hv'⟩
    · exact ⟨0, fun v' hv' => absurd ⟨v', hv'⟩ hex⟩
  choose owner howner using hone
  exact ⟨owner, fun v id hv => howner id v hv⟩

theorem NoCollisions.owner (h : NoCollisions s ops) (hs : Valid s) :
    ∃ owner : Owner, s.OwnedBy owner ∧ ∀ k v g, (ops k).Supplies v g → g.OwnedBy owner v := by
  obtain ⟨node, hnode⟩ := exists_owner
    (P := fun v id => ∃ g, Supplied s ops v g ∧ ∃ n ∈ g.nodes, n.id = id) (by
      rintro v v' id ⟨g, hg, n, hn, rfl⟩ ⟨g', hg', n', hn', hid⟩
      by_contra hne
      exact (h v v' g g' hg hg' hne).1 n hn n' hn' hid.symm)
  obtain ⟨edge, hedge⟩ := exists_owner
    (P := fun v id => ∃ g, Supplied s ops v g ∧ ∃ e ∈ g.edges, e.id = id) (by
      rintro v v' id ⟨g, hg, e, he, rfl⟩ ⟨g', hg', e', he', hid⟩
      by_contra hne
      exact (h v v' g g' hg hg' hne).2 e he e' he' hid.symm)
  have hnodes : ∀ r ∈ s.nodes, node r.node.id = r.versionID := by
    intro r hr
    obtain ⟨v, hv, hid⟩ := hs.node_version r hr
    refine hnode _ _ ⟨_, .stored hv hid, r.node, ?_, rfl⟩
    exact mem_graphOf_nodes.mpr (mem_nodesOf.mpr ⟨r, hr, hid.symm, rfl⟩)
  refine ⟨⟨node, edge⟩, ⟨hnodes, ?_⟩, ?_⟩
  · intro r hr
    obtain ⟨⟨n, hn, hfrom⟩, -⟩ := hs.edge_nodes r hr
    obtain ⟨q, hq, hversion, rfl⟩ := mem_nodesOf.mp hn
    obtain ⟨v, hv, hid⟩ := hs.node_version q hq
    rw [hversion] at hid
    constructor
    · refine hedge _ _ ⟨_, .stored hv hid, r.edge, ?_, rfl⟩
      exact mem_graphOf_edges.mpr (mem_edgesOf.mpr ⟨r, hr, hid.symm, rfl⟩)
    · rw [← hfrom]
      exact (hnodes q hq).trans hversion
  · intro k v g hsupplies
    exact ⟨fun n hn => hnode _ _ ⟨g, .client hsupplies, n, hn, rfl⟩,
      fun e he => hedge _ _ ⟨g, .client hsupplies, e, he, rfl⟩⟩

/-- Clients whose graph ids do not collide never wait for one another's row locks in a circle:
in every state that their statements lead to, and however many of the locks of its next
statement each of them has by then, as long as no two of the locks that they hold conflict. -/
theorem lock_waits_acyclic [DecidableEq ι] (h : Reachable s) (hids : NoCollisions s ops)
    {trace : List (ι × Txn.Event)} {sys : Server ι} (hrun : Txn.Run (clients s ops) trace sys)
    {part : ι → Locks} (hpart : sys.Acquiring part) (k : ι) :
    ¬ Relation.TransGen (sys.WaitsFor part) k k := by
  obtain ⟨owner, howned, hsupplies⟩ := hids.owner h.valid
  exact (tracked_clients h.valid ops).no_deadlock (fun i => (ops i).orders (hsupplies i)) howned
    hrun hpart k

end

/-- Two clients publish one version. The first has locked it, and the second waits. -/
theorem lock_waits_acyclic_triage : ∃ sys : Server Bool,
    sys.WaitsFor (fun _ => []) true false ∧
      ¬ Relation.TransGen (sys.WaitsFor fun _ => []) true true := by
  obtain ⟨v, hv⟩ : ∃ v, (Triage.started.versionRows 2).head? = some v :=
    Option.isSome_iff_exists.mp (by decide +kernel)
  have hlock : (Answer.lockRow (.version 2) .update (Triage.started.versionRows 2).head?).locks =
      [(.version 2, .update)] := by
    rw [hv]
    rfl
  obtain ⟨trace, sys, hrun, hheld, hasked, hnone⟩ : ∃ trace sys,
      Txn.Run (clients Triage.started fun _ : Bool => .publish 2 9) trace sys ∧
        (sys.session false).locks = [(.version 2, .update)] ∧
        (sys.session true).demands sys.store = [(.version 2, .update)] ∧
        (sys.session true).locks = [] := by
    have hbegin : Txn.Run (clients Triage.started fun _ : Bool => .publish 2 9) _ _ :=
      ((Txn.Run.nil _).snoc (i := false) (.begin rfl)).snoc (i := true) (.begin rfl)
    have hrun := hbegin.snoc (i := false) (.statement rfl fun j _ => by
      cases j <;> exact Txn.compatible_nil_right _)
    exact ⟨_, _, hrun, hlock, hlock, rfl⟩
  have hids : NoCollisions Triage.started fun _ : Bool => .publish 2 9 := by
    rintro v v' g g' (⟨hw, rfl⟩ | hsupplies) (⟨hw', rfl⟩ | hsupplies') hne
    · have hone : ∀ w ∈ Triage.started.versions, w.id = 2 := by decide +kernel
      exact absurd ((hone _ hw).trans (hone _ hw').symm) hne
    · cases hsupplies'
    · cases hsupplies
    · cases hsupplies
  refine ⟨sys, ⟨by decide, (.version 2, .update), ⟨[], hasked⟩, (.version 2, .update), ?_, rfl, rfl⟩,
    lock_waits_acyclic Triage.reachable_started hids hrun ⟨fun _ => List.nil_prefix, ?_⟩ true⟩
  · simp [Txn.System.holding, hheld]
  · intro i j hne
    cases i <;> cases j <;> simp_all [Txn.System.holding, Txn.Compatible]

end Interbellum
