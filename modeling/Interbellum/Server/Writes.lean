import Interbellum.Domain.JsonNames
import Interbellum.Invariant.Batches
import Interbellum.Server.Operations
import Interbellum.Txn.Writes

/-!
# What each operation may write

Only `start` inserts investigations, only `createAlert` inserts alerts, and a node is only ever
inserted as its row holds it.

* `Operation.writes`: every operation makes `Proper` writes.
* `Reachable.stored`: the nodes of a reachable state are as they are stored.
-/

namespace Interbellum

open PlaybookRepository InvestigationRepository

theorem storedNode_storedNode (n : Node) : storedNode (storedNode n) = storedNode n := by
  simp only [storedNode, Option.map_map, Function.comp_def, Json.jsonb_jsonb]

/-- The writes of a transaction on playbooks; `publishes` says which versions it may publish. -/
def Write.Designs (publishes : UUID → Prop) : Write → Prop
  | .insertNode row => storedNode row.node = row.node ∧ storableNode row.node = true
  | .insertEdge row => storableEdge row.edge = true
  | .insertVersion v => v.status = .draft
  | .setPublished id _ => publishes id
  | .insertPlaybook _ | .setRoot _ _ | .deleteNodes _ _ | .deleteEdges _ _ => True
  | .insertAlert _ | .insertInvestigation _ | .setState _ _ _ _ _ | .insertStep _ => False

/-- `starts` says whether the program may insert investigations, and `ingests` which alerts it
may insert. -/
def Write.Proper (starts : Prop) (ingests : Alert → Prop) : Write → Prop
  | .insertNode row => storedNode row.node = row.node
  | .insertAlert a => ingests a
  | .insertInvestigation _ => starts
  | _ => True

section

variable {β : Type} {P : Write → Prop} {publishes : UUID → Prop}

theorem writes_sql {f : Store → Answer β} {onError : Err → Err}
    (h : ∀ s, ∀ w ∈ (f s).writes, P w) :
    (sql f onError).run.Writes P := fun s => ⟨h s, trivial⟩

theorem Answer.mem_guarded_writes {violations : List (Bool × Err)} {a : Answer β} {w : Write}
    (h : w ∈ (guarded violations a).writes) : w ∈ a.writes := by
  cases hf : violations.find? Prod.fst with
  | none => simpa only [guarded, hf] using h
  | some v => simp [guarded, hf, fail] at h

theorem writes_checked {violations : Store → List (Bool × Err)} {answer : Store → Answer β}
    {onError : Err → Err} (h : ∀ s, ∀ w ∈ (answer s).writes, P w) :
    (sql (fun s => .guarded (violations s) (answer s)) onError).run.Writes
      P :=
  writes_sql fun s w hw => h s w (Answer.mem_guarded_writes hw)

theorem writes_row {onError : Err → Err} {f : Store → Option β} :
    (sql (fun s => .row (f s)) onError).run.Writes P := by
  refine writes_sql ?_
  intro s w hw
  rw [row_writes] at hw
  exact (List.not_mem_nil hw).elim

theorem writes_lockRow {onError : Err → Err} {f : Store → Option β} {key : LockKey}
    {mode : Txn.LockMode} :
    (sql (fun s => .lockRow key mode (f s)) onError).run.Writes P := by
  refine writes_sql ?_
  intro s w hw
  cases hrow : f s <;> simp [Answer.lockRow, Answer.fail, hrow] at hw

theorem writes_read {onError : Err → Err} {f : Store → β} :
    (sql (fun s => .read (f s)) onError).run.Writes P :=
  writes_sql fun _ _ hw => (List.not_mem_nil hw).elim

/-! ## Playbooks -/

theorem storableNode_storedNode {n : Node} (h : storableNode n = true) :
    storableNode (storedNode n) = true := by
  simp only [storableNode, Bool.and_eq_true] at h ⊢
  refine ⟨h.1, ?_⟩
  cases hmetadata : n.metadata with
  | none => simp [storedNode, storableJson, hmetadata]
  | some j =>
    have hj : j.storable = true := by simpa [storableJson, hmetadata] using h.2
    simpa [storedNode, storableJson, hmetadata] using Json.storable_of_storable hj

theorem writes_insertNode (id : UUID) (n : Node) :
    (insertNode id n).run.Writes (Write.Designs publishes) := by
  refine writes_sql fun s w hw => ?_
  refine Answer.of_guarded (P := fun a => w ∈ a.writes → Write.Designs publishes w) ?_ ?_ hw
  · exact fun _ hw => (List.not_mem_nil hw).elim
  · intro hchecks hw
    rw [List.mem_singleton.mp hw]
    have hstorable : storableNode n = true := by
      simpa [storableNode] using hchecks _ List.mem_cons_self
    exact ⟨storedNode_storedNode n, storableNode_storedNode hstorable⟩

theorem writes_insertEdge (id : UUID) (e : Edge) :
    (insertEdge id e).run.Writes (Write.Designs publishes) := by
  refine writes_sql fun s w hw => ?_
  refine Answer.of_guarded (P := fun a => w ∈ a.writes → Write.Designs publishes w) ?_ ?_ hw
  · exact fun _ hw => (List.not_mem_nil hw).elim
  · intro hchecks hw
    rw [List.mem_singleton.mp hw]
    show storableEdge e = true
    simpa [storableEdge] using hchecks _ List.mem_cons_self

theorem writes_setRoot (id : UUID) (root : Option UUID) :
    (setRoot id root).run.Writes (Write.Designs publishes) := by
  refine writes_sql ?_
  intro s w hw
  cases hrow : (s.versionRows id).head? with
  | none => simp [hrow, Answer.read] at hw
  | some v =>
    simp only [hrow] at hw
    rw [List.mem_singleton.mp (Answer.mem_guarded_writes hw)]
    trivial

theorem writes_setPublished (id : UUID) (now : Time) :
    (setPublished id now).run.Writes (Write.Designs (· = id)) := by
  refine writes_sql ?_
  intro s w hw
  cases hrow : (s.versionRows id).head? with
  | none => simp [hrow, Answer.read] at hw
  | some v =>
    simp only [hrow] at hw
    rw [List.mem_singleton.mp hw]
    rfl

theorem writes_insertVersion (id : UUID) (now : Time) (playbookID : UUID) (number : Nat) :
    (insertVersion id now playbookID number).run.Writes (Write.Designs publishes) := by
  refine writes_checked ?_
  intro s w hw
  rw [List.mem_singleton.mp hw]
  rfl

theorem writes_insertPlaybook (id : UUID) (now : Time) (input : NewPlaybook) :
    (insertPlaybook id now input).run.Writes (Write.Designs publishes) := by
  refine writes_checked ?_
  intro s w hw
  rw [List.mem_singleton.mp hw]
  trivial

theorem writes_execBatch {α : Type} {statement : α → Db Unit}
    (h : ∀ a, (statement a).run.Writes (Write.Designs publishes)) (items : List α) :
    (execBatch (items.map statement)).run.Writes (Write.Designs publishes) := by
  induction items with
  | nil => trivial
  | cons a rest ih => exact .bind_except (h a) fun _ => ih

theorem writes_writeGraph (id : UUID) (g : Graph) :
    (writeGraph id g).run.Writes (Write.Designs publishes) := by
  refine .bind_except (writes_execBatch (writes_insertNode id) _) fun _ => ?_
  refine .bind_except ?_ fun _ => ?_
  · unfold sendEdges
    split
    · exact writes_execBatch (writes_insertEdge id) _
    · trivial
  · cases g.rootNodeID with
    | none => trivial
    | some root => exact writes_setRoot id (some root)

theorem writes_clearGraph (id : UUID) : (clearGraph id).run.Writes (Write.Designs publishes) := by
  refine .bind_except (writes_setRoot id none) fun _ => .bind_except ?_ fun _ => ?_
  · refine writes_checked ?_
    intro s w hw
    rw [List.mem_singleton.mp hw]
    trivial
  · refine writes_checked ?_
    intro s w hw
    rw [List.mem_singleton.mp hw]
    trivial

theorem writes_loadGraph (id : UUID) (root : Option UUID) :
    (loadGraph id root).run.Writes P :=
  .bind_except writes_read fun _ => .bind_except writes_read fun _ => trivial

theorem writes_loadDefinition (id : UUID) :
    (loadDefinition id).run.Writes P :=
  .bind_except writes_row fun _ => .bind_except (writes_loadGraph id _) fun _ => trivial

theorem writes_createBody (p v : UUID) (now : Time) (input : NewPlaybook) :
    (createBody p v now input).run.Writes (Write.Designs publishes) := by
  refine .bind_except (writes_insertPlaybook p now input) fun pb => ?_
  refine .bind_except (writes_insertVersion v now pb.id 1) fun version => ?_
  refine .bind_except (writes_writeGraph version.id input.graph) fun _ => ?_
  exact .bind_except (writes_loadDefinition version.id) fun _ => trivial

theorem writes_createVersionBody (p : UUID) (cloneFrom : Option UUID) (v : UUID)
    (fresh : Nat → UUID) (now : Time) :
    (createVersionBody p cloneFrom v fresh now).run.Writes (Write.Designs publishes) := by
  refine .bind_except ?_ fun source => ?_
  · cases cloneFrom with
    | none => trivial
    | some id =>
      exact .bind_except writes_lockRow fun _ =>
        .bind_except (writes_loadDefinition id) fun _ => trivial
  refine .bind_except writes_lockRow fun _ => ?_
  refine .bind_except ?_ fun _ => ?_
  · cases source with
    | none => trivial
    | some source =>
      rw [checkOwner]
      split <;> trivial
  refine .bind_except (writes_checked fun _ _ hw => (List.not_mem_nil hw).elim) fun next => ?_
  refine .bind_except (writes_insertVersion v now p next) fun version => ?_
  refine .bind_except ?_ fun _ => writes_loadDefinition version.id
  cases source with
  | none => trivial
  | some source => exact writes_writeGraph version.id _

theorem writes_replaceGraphBody (v : UUID) (g : Graph) :
    (replaceGraphBody v g).run.Writes (Write.Designs publishes) := by
  refine .bind_except writes_lockRow fun version => ?_
  split
  · exact .bind_except (writes_clearGraph v) fun _ =>
      .bind_except (writes_writeGraph v g) fun _ => writes_loadDefinition v
  · trivial

theorem writes_publishBody (v : UUID) (now : Time) :
    (publishBody v now).run.Writes (Write.Designs (· = v)) := by
  refine .bind_except writes_lockRow fun version => ?_
  split
  · refine .bind_except (writes_loadGraph v _) fun graph => ?_
    split
    · exact .bind_except (writes_setPublished v now) fun _ => writes_loadDefinition v
    · trivial
  · trivial

/-! ## Requests -/

theorem writes_onPool {body : Db β} (h : body.run.Writes P) :
    (onPool body).run.Writes P := (Txn.Call.writes_autocommit h).map

theorem writes_inTx {body : Db β} (h : body.run.Writes P) :
    (inTx body).run.Writes P := ⟨h, fun _ => trivial⟩

theorem writes_getAlert (id : UUID) :
    (AlertRepository.get id).run.Writes P := writes_onPool writes_row

theorem writes_getVersion (v : UUID) :
    (PlaybookRepository.getVersion v).run.Writes P :=
  writes_onPool (writes_loadDefinition v)

theorem writes_getPlaybook (id : UUID) :
    (PlaybookRepository.get id).run.Writes P :=
  writes_onPool (.bind_except writes_row fun _ => .bind_except writes_read fun _ => trivial)

/-- The row of an alert that is stored with this id. -/
def NewAlert.row (id : UUID) (now : Time) (input : NewAlert) : Alert :=
  ⟨id, input.externalID, input.alertType, input.title, input.description,
    (input.payload.getD (.obj [])).jsonb, input.occurredAt, now⟩

/-- The database can store all of the alert. -/
def NewAlert.storable (input : NewAlert) : Bool :=
  input.externalID.all storableText && storableText input.alertType &&
    storableText input.title && storableText input.description &&
      input.payload.all Json.storable

/-- The alert passes the checks of the service, and the database can store it. -/
structure NewAlert.Accepted (input : NewAlert) : Prop where
  alertType : input.alertType ≠ ""
  title : input.title ≠ ""
  occurredAt : input.occurredAt ≠ AlertService.zeroTime
  externalID : input.externalID ≠ some ""
  storable : input.storable = true

theorem writes_createAlert {id : UUID} {now : Time} {input : NewAlert}
    (hinsert : input.Accepted → P (.insertAlert (input.row id now))) :
    (AlertService.create id now input).run.Writes P := by
  unfold AlertService.create
  split
  · trivial
  rename_i htype
  split
  · trivial
  rename_i htitle
  split
  · trivial
  rename_i htime
  split
  · trivial
  rename_i hexternal
  have hstatement : (AlertRepository.insertAlert id now input).run.Writes P := by
    refine writes_sql fun s w hw => ?_
    refine Answer.of_guarded (P := fun a => w ∈ a.writes → P w) ?_ ?_ hw
    · exact fun _ hw => (List.not_mem_nil hw).elim
    · intro hchecks hw
      rw [List.mem_singleton.mp hw]
      have hstorable := hchecks _ List.mem_cons_self
      exact hinsert ⟨htype, htitle, htime, hexternal, by simpa [NewAlert.storable] using hstorable⟩
  · refine Txn.Call.Writes.bind (Txn.Call.writes_autocommit hstatement) ?_
    rintro (e | a)
    · cases e with
      | noRows =>
        cases input.externalID with
        | none => trivial
        | some x => exact Txn.Call.Writes.bind (writes_onPool writes_row) fun _ => trivial
      | _ => trivial
    · trivial

theorem writes_start (hinsert : ∀ i, P (.insertInvestigation i)) (id : UUID) (now : Time)
    (alertID versionID : UUID) :
    (InvestigationService.start id now alertID versionID).run.Writes P := by
  refine .bind_except (writes_getAlert alertID) fun a => ?_
  refine .bind_except (writes_getVersion versionID) fun d => ?_
  refine .bind_except (writes_getPlaybook _) fun (owner, _) => ?_
  cases hstart : InvestigationService.startFrom versionID now a d owner with
  | error e =>
    simp only [hstart]
    trivial
  | ok r =>
    simp only [hstart]
    refine .bind_except (writes_onPool (writes_checked ?_)) fun _ => trivial
    intro s w hw
    rw [List.mem_singleton.mp hw]
    exact hinsert _

theorem writes_attempt (hstep : ∀ row, P (.insertStep row))
    (hstate : ∀ id current status completedAt resolution,
      P (.setState id current status completedAt resolution)) (a : Attempt) :
    a.call.run.Writes P := by
  refine writes_inTx (.bind_except writes_lockRow fun inv => .bind_except ?_ fun recorded => ?_)
  · unfold findRecorded
    split
    · trivial
    · refine writes_checked ?_
      intro s w hw
      split at hw
      · exact (List.not_mem_nil hw).elim
      · split at hw <;> exact (List.not_mem_nil hw).elim
  · cases recorded with
    | some existing => trivial
    | none =>
      simp only
      split
      · trivial
      · refine .bind_except (writes_sql ?_) fun found => ?_
        · intro s w hw
          split at hw
          · exact (List.not_mem_nil hw).elim
          · rw [row_writes] at hw
            exact (List.not_mem_nil hw).elim
        · cases hnext : inv.decide found.1 found.2 a.now with
          | error e =>
            simp only [hnext]
            trivial
          | ok next =>
            simp only [hnext]
            refine .bind_except (writes_checked ?_) fun step => .bind_except ?_ fun _ => trivial
            · intro s w hw
              rw [List.mem_singleton.mp hw]
              exact hstep _
            · refine writes_sql ?_
              intro s w hw
              rw [updatedState] at hw
              split at hw
              · exact (List.not_mem_nil hw).elim
              · rw [List.mem_singleton.mp (Answer.mem_guarded_writes hw)]
                exact hstate _ _ _ _ _

theorem writes_getWithSteps (id : UUID) :
    (InvestigationRepository.getWithSteps id).run.Writes P :=
  fun _ => trivial

theorem writes_getState (id : UUID) :
    (InvestigationService.get id).run.Writes P := by
  refine .bind_except (writes_getWithSteps id) fun shown => ?_
  refine .bind_except (writes_getAlert _) fun a => ?_
  refine .bind_except (writes_getVersion _) fun d => ?_
  split <;> trivial

theorem writes_report (id : UUID) :
    (InvestigationService.report id).run.Writes P :=
  .bind_except (writes_getWithSteps id) fun _ => .bind_except (writes_getAlert _) fun _ =>
    .bind_except (writes_getVersion _) fun _ => trivial

theorem writes_submit (hstep : ∀ row, P (.insertStep row))
    (hstate : ∀ id current status completedAt resolution,
      P (.setState id current status completedAt resolution)) (a : Attempt) :
    a.submit.run.Writes P := by
  unfold Attempt.submit InvestigationService.submitDecision
  split
  · trivial
  · exact .bind_except (writes_attempt hstep hstate a) fun _ => writes_getState a.investigationID

theorem writes_request {check : Except AppError Unit} {k : Svc β}
    (h : k.run.Writes P) :
    (PlaybookService.checked check k).run.Writes P := by
  cases check with
  | error e => trivial
  | ok => exact h

end

/-! ## Operations -/

/-- The operation may insert an investigation. -/
def Operation.Starts : Operation → Prop
  | .start _ _ _ _ => True
  | _ => False

/-- The alerts the operation may insert. -/
def Operation.Ingests : Operation → Alert → Prop
  | .createAlert id now input => fun a => a = input.row id now ∧ input.Accepted
  | _ => fun _ => False

/-- The writes that the operation may make. -/
def Operation.May : Operation → Write → Prop
  | .createPlaybook _ _ _ _ | .submitPlaybook _ _ _ _ | .createVersion _ _ _ _ _
  | .replaceGraph _ _ | .submitGraph _ _ => Write.Designs fun _ => False
  | .publish v _ => Write.Designs (· = v)
  | .getPlaybook _ | .getVersion _ | .getInvestigation _ | .report _ => fun _ => False
  | .createAlert id now input => fun w => w = .insertAlert (input.row id now) ∧ input.Accepted
  | .start _ _ _ _ => fun w => ∃ i, w = .insertInvestigation i
  | .decide _ | .submit _ => fun w => (∃ row, w = .insertStep row) ∨
      ∃ id current status completedAt resolution,
        w = .setState id current status completedAt resolution

theorem Operation.may (op : Operation) : op.call.Writes op.May := by
  cases op with
  | createPlaybook p v now input => exact (writes_inTx (writes_createBody p v now input)).map
  | submitPlaybook p v now input =>
    exact (writes_request (writes_inTx (writes_createBody p v now input))).map
  | createVersion p cloneFrom v fresh now =>
    exact (writes_inTx (writes_createVersionBody p cloneFrom v fresh now)).map
  | replaceGraph v g => exact (writes_inTx (writes_replaceGraphBody v g)).map
  | submitGraph v g => exact (writes_request (writes_inTx (writes_replaceGraphBody v g))).map
  | publish v now => exact (writes_inTx (writes_publishBody v now)).map
  | getPlaybook id => exact (writes_getPlaybook id).map
  | getVersion v => exact (writes_getVersion v).map
  | createAlert id now input => exact (writes_createAlert fun h => ⟨rfl, h⟩).map
  | start id now alertID v => exact (writes_start (fun i => ⟨i, rfl⟩) id now alertID v).map
  | decide a =>
    exact (writes_attempt (fun _ => .inl ⟨_, rfl⟩)
      (fun _ _ _ _ _ => .inr ⟨_, _, _, _, _, rfl⟩) a).map
  | submit a =>
    exact (writes_submit (fun _ => .inl ⟨_, rfl⟩)
      (fun _ _ _ _ _ => .inr ⟨_, _, _, _, _, rfl⟩) a).map
  | getInvestigation id => exact (writes_getState id).map
  | report id => exact (writes_report id).map

theorem Write.Designs.proper {publishes : UUID → Prop} {starts : Prop} {ingests : Alert → Prop}
    {w : Write} (h : w.Designs publishes) : w.Proper starts ingests := by
  cases w with
  | insertNode row => exact h.1
  | insertAlert a => exact h.elim
  | insertInvestigation i => exact h.elim
  | _ => trivial

theorem Operation.May.proper {op : Operation} {w : Write} (h : op.May w) :
    w.Proper op.Starts op.Ingests := by
  cases op with
  | createAlert id now input =>
    obtain ⟨rfl, haccepted⟩ := h
    exact ⟨rfl, haccepted⟩
  | start id now alertID v =>
    obtain ⟨i, rfl⟩ := h
    trivial
  | decide a => obtain ⟨row, rfl⟩ | ⟨_, _, _, _, _, rfl⟩ := h <;> trivial
  | submit a => obtain ⟨row, rfl⟩ | ⟨_, _, _, _, _, rfl⟩ := h <;> trivial
  | getPlaybook id => exact h.elim
  | getVersion v => exact h.elim
  | getInvestigation id => exact h.elim
  | report id => exact h.elim
  | _ => exact Write.Designs.proper h

theorem Operation.writes (op : Operation) : op.call.Writes (Write.Proper op.Starts op.Ingests) :=
  op.may.mono fun _ => Operation.May.proper

theorem proper_clients {ι : Type} (s : Store) (ops : ι → Operation) (k : ι) :
    ((clients s ops).session k).Writes (Write.Proper (ops k).Starts (ops k).Ingests) :=
  (ops k).writes

/-- The nodes are as their rows hold them. -/
def Store.Stored (s : Store) : Prop := ∀ r ∈ s.nodes, storedNode r.node = r.node

theorem Store.Stored.write {s : Store} {w : Write} {starts : Prop} {ingests : Alert → Prop}
    (h : s.Stored) (hw : w.Proper starts ingests) : (s.write w).Stored := by
  cases w with
  | insertNode row =>
    intro r hr
    rcases List.mem_append.mp hr with hr | hr
    · exact h r hr
    · rw [List.mem_singleton.mp hr]
      exact hw
  | deleteNodes id nodes => exact fun r hr => h r (List.mem_of_mem_filter hr)
  | _ => exact h

theorem stored_run {ι : Type} [DecidableEq ι] {s : Store} {ops : ι → Operation}
    {trace : List (ι × Txn.Event)} {sys : Server ι} (h : s.Stored)
    (hrun : Txn.Run (clients s ops) trace sys) : sys.store.Stored :=
  hrun.preserves (fun _ _ _ hw hs => hs.write hw) (proper_clients s ops) h

theorem Reachable.stored {s : Store} (h : Reachable s) : s.Stored := by
  induction h with
  | empty => exact fun r hr => (List.not_mem_nil hr).elim
  | run _ hrun ih => exact stored_run ih hrun

/-- The rows of nodes and edges can be stored. -/
structure Store.Storable (s : Store) : Prop where
  nodes : ∀ r ∈ s.nodes, storableNode r.node = true
  edges : ∀ r ∈ s.edges, storableEdge r.edge = true

theorem Store.Storable.designs {s : Store} {w : Write} {publishes : UUID → Prop}
    (h : s.Storable) (hw : w.Designs publishes) : (s.write w).Storable := by
  cases w with
  | insertNode row =>
    refine { h with nodes := fun r hr => ?_ }
    rcases List.mem_append.mp hr with hr | hr
    · exact h.nodes r hr
    · rw [List.mem_singleton.mp hr]
      exact hw.2
  | insertEdge row =>
    refine { h with edges := fun r hr => ?_ }
    rcases List.mem_append.mp hr with hr | hr
    · exact h.edges r hr
    · rw [List.mem_singleton.mp hr]
      exact hw
  | deleteNodes id nodes => exact { h with nodes := fun r hr => h.nodes r (List.mem_of_mem_filter hr) }
  | deleteEdges id edges => exact { h with edges := fun r hr => h.edges r (List.mem_of_mem_filter hr) }
  | _ => exact { h with }

theorem Store.Storable.write {s : Store} {op : Operation} {w : Write} (h : s.Storable)
    (hw : op.May w) : (s.write w).Storable := by
  cases op with
  | createAlert id now input =>
    obtain ⟨rfl, -⟩ := hw
    exact { h with }
  | start id now alertID v =>
    obtain ⟨i, rfl⟩ := hw
    exact { h with }
  | decide a => obtain ⟨row, rfl⟩ | ⟨_, _, _, _, _, rfl⟩ := hw <;> exact { h with }
  | submit a => obtain ⟨row, rfl⟩ | ⟨_, _, _, _, _, rfl⟩ := hw <;> exact { h with }
  | getPlaybook id => exact hw.elim
  | getVersion v => exact hw.elim
  | getInvestigation id => exact hw.elim
  | report id => exact hw.elim
  | _ => exact h.designs hw

theorem Reachable.storable {s : Store} (h : Reachable s) : s.Storable := by
  induction h with
  | empty => exact ⟨fun _ hr => (List.not_mem_nil hr).elim, fun _ hr => (List.not_mem_nil hr).elim⟩
  | @run ι _ s ops trace sys _ hrun ih =>
    have hmay : ∀ k, ((clients s ops).session k).Writes (ops k).May := fun k => (ops k).may
    exact hrun.preserves (fun _ _ _ hw hs => hs.write hw) hmay ih

end Interbellum
