import Interbellum.Digraph.Trails
import Interbellum.Postgres.InvestigationRepository

/-!
# What holds of every committed state

`Design` is what the schema and the publish-time rules guarantee of playbooks: keys are
unique, references resolve, and the graph of a published version passes validation. `Valid`
adds the investigations: the steps of each are a walk through the graph of its version, from
the root to the current node, and the investigation is completed when that node is terminal.

`Evolves` is what a committed state keeps of an earlier one: published versions and their
graphs, the binding of investigations, and the steps recorded so far.
-/

namespace Interbellum

/-- The graph of a version as `loadGraph` reads it. -/
def Store.graphOf (s : Store) (v : Version) : Graph :=
  ⟨v.rootNodeID, PlaybookRepository.sortNodes (s.nodesOf v.id),
    PlaybookRepository.sortEdgeRows (s.edgesOf v.id)⟩

structure Design (s : Store) : Prop where
  playbook_ids : (s.playbooks.map Playbook.id).Nodup
  version_ids : (s.versions.map Version.id).Nodup
  node_ids : (s.nodes.map fun r => r.node.id).Nodup
  edge_ids : (s.edges.map fun r => r.edge.id).Nodup
  edge_labels : (s.edges.map fun r => (r.edge.fromNodeID, r.edge.label)).Nodup
  numbered : ∀ p, s.versionNumbers p = List.range' 1 (s.versionNumbers p).length
  version_playbook : ∀ v ∈ s.versions, ∃ p ∈ s.playbooks, p.id = v.playbookID
  lifecycle : ∀ v ∈ s.versions, v.status = .draft ∧ v.publishedAt = none ∨
    v.status = .published ∧ v.publishedAt ≠ none
  root_node : ∀ v ∈ s.versions, ∀ root, v.rootNodeID = some root →
    ∃ n ∈ s.nodesOf v.id, n.id = root
  node_version : ∀ r ∈ s.nodes, ∃ v ∈ s.versions, v.id = r.versionID
  node_check : ∀ r ∈ s.nodes, r.node.kind = .terminal ∧ r.node.terminalResolution.isSome ∨
    r.node.kind = .decision ∧ r.node.terminalResolution = none
  node_text : ∀ r ∈ s.nodes, storableOption r.node.terminalResolution = true
  edge_nodes : ∀ r ∈ s.edges, (∃ n ∈ s.nodesOf r.versionID, n.id = r.edge.fromNodeID) ∧
    ∃ n ∈ s.nodesOf r.versionID, n.id = r.edge.toNodeID
  published : ∀ v ∈ s.versions, v.status = .published → (s.graphOf v).validate = []

theorem foldl_max_range' (start n m : Nat) (hm : m ≤ start) :
    (List.range' (start + 1) n).foldl max m = if n = 0 then m else start + n := by
  induction n generalizing start m with
  | zero => rfl
  | succ n ih =>
    rw [List.range'_succ, List.foldl_cons, Nat.max_eq_right (by omega), ih _ _ (le_refl _),
      if_neg (Nat.succ_ne_zero n)]
    split <;> omega

/-- Rows numbered from 1 without gaps: the largest number is their count. -/
theorem foldl_max_of_numbered {numbers : List Nat}
    (h : numbers = List.range' 1 numbers.length) : numbers.foldl max 0 = numbers.length := by
  have hmax := foldl_max_range' 0 numbers.length 0 (le_refl _)
  rw [← h] at hmax
  rw [hmax]
  split <;> omega

/-- The edge with this id leads from `a` to `b`. -/
def Joins (edges : List Edge) (id a b : UUID) : Prop :=
  ∃ e ∈ edges, e.id = id ∧ e.fromNodeID = a ∧ e.toNodeID = b

/-- Where a step was taken, and along which edge. -/
def StepRow.taken (r : StepRow) : UUID × UUID := (r.nodeID, r.selectedEdgeID)

abbrev Walk (edges : List Edge) (a : UUID) (steps : List (UUID × UUID)) (b : UUID) : Prop :=
  Digraph.Trail (Joins edges) a steps b

/-- The status of an investigation that stands at node `n`. -/
def Outcome (n : Node) (i : Investigation) : Prop :=
  n.kind = .terminal ∧ i.status = .completed ∧ i.completedAt.isSome ∧
      i.finalResolution = n.terminalResolution ∨
    n.kind ≠ .terminal ∧ i.status = .inProgress ∧ i.completedAt = none ∧
      i.finalResolution = none

/-- Versions an investigation may be bound to, and the alerts it may be bound to with them. -/
def Bound (s : Store) (i : Investigation) (v : Version) : Prop :=
  v ∈ s.versions ∧ v.id = i.playbookVersionID ∧ v.status = .published ∧
    ∃ p ∈ s.playbooks, p.id = v.playbookID ∧ ∃ a ∈ s.alerts, a.id = i.alertID ∧
      p.alertType = a.alertType

structure Consistent (s : Store) (i : Investigation) : Prop where
  numbers : (s.stepsOf i.id).map StepRow.sequenceNumber =
    List.range' 1 (s.stepsOf i.id).length
  version : ∀ r ∈ s.stepsOf i.id, r.playbookVersionID = i.playbookVersionID
  walk : ∃ v root, Bound s i v ∧ v.rootNodeID = some root ∧
    Walk (s.edgesOf v.id) root ((s.stepsOf i.id).map StepRow.taken) i.currentNodeID
  outcome : ∀ n ∈ s.nodesOf i.playbookVersionID, n.id = i.currentNodeID → Outcome n i
  keys : ((s.stepsOf i.id).filterMap StepRow.idempotencyKey).Nodup
  evidence : ∀ r ∈ s.stepsOf i.id, r.Readable

structure Valid (s : Store) : Prop extends Design s where
  alert_ids : (s.alerts.map Alert.id).Nodup
  external_ids : (s.alerts.filterMap Alert.externalID).Nodup
  investigation_ids : (s.investigations.map Investigation.id).Nodup
  step_ids : (s.steps.map StepRow.id).Nodup
  step_investigation : ∀ r ∈ s.steps, ∃ i ∈ s.investigations, i.id = r.investigationID
  consistent : ∀ i ∈ s.investigations, Consistent s i

theorem Valid.owner {s : Store} (h : Valid s) {id : UUID} {r : StepRow} (hr : r ∈ s.stepsOf id) :
    ∃ i ∈ s.investigations, i.id = id := by
  obtain ⟨hmem, hid⟩ := List.mem_filter.mp hr
  obtain ⟨i, hi, hir⟩ := h.step_investigation r hmem
  exact ⟨i, hi, hir.trans (of_decide_eq_true hid)⟩

theorem Valid.readable {s : Store} (h : Valid s) {id : UUID} {r : StepRow}
    (hr : r ∈ s.stepsOf id) : r.Readable := by
  obtain ⟨i, hi, rfl⟩ := h.owner hr
  exact (h.consistent i hi).evidence r hr

/-! ## Evolution -/

structure Evolves (s s' : Store) : Prop where
  playbooks : ∀ p ∈ s.playbooks, p ∈ s'.playbooks
  alerts : ∀ a ∈ s.alerts, a ∈ s'.alerts
  versions : ∀ v ∈ s.versions, ∃ v' ∈ s'.versions, v'.id = v.id ∧ v'.playbookID = v.playbookID ∧
    v'.version = v.version ∧ (v.status = .published → v' = v)
  frozen : ∀ v ∈ s.versions, v.status = .published →
    s'.nodeRows v.id = s.nodeRows v.id ∧ s'.edgeRows v.id = s.edgeRows v.id
  investigations : ∀ i ∈ s.investigations, ∃ i' ∈ s'.investigations, i'.id = i.id ∧
    i'.alertID = i.alertID ∧ i'.playbookVersionID = i.playbookVersionID ∧
      i'.startedAt = i.startedAt ∧ (i.status = .completed → i' = i)
  steps : ∀ id, s.stepsOf id <+: s'.stepsOf id
  completed : ∀ i ∈ s.investigations, i.status = .completed → s'.stepsOf i.id = s.stepsOf i.id

theorem Evolves.refl (s : Store) : Evolves s s where
  playbooks := fun _ hp => hp
  alerts := fun _ ha => ha
  versions := fun v hv => ⟨v, hv, rfl, rfl, rfl, fun _ => rfl⟩
  frozen := fun _ _ _ => ⟨rfl, rfl⟩
  investigations := fun i hi => ⟨i, hi, rfl, rfl, rfl, rfl, fun _ => rfl⟩
  steps := fun _ => List.prefix_rfl
  completed := fun _ _ _ => rfl

/-- A published version keeps its row. -/
theorem Evolves.published {s s' : Store} (h : Evolves s s') {v : Version} (hv : v ∈ s.versions)
    (hp : v.status = .published) : v ∈ s'.versions := by
  obtain ⟨v', hv', -, -, -, heq⟩ := h.versions v hv
  rwa [← heq hp]

theorem Evolves.completed_row {s s' : Store} (h : Evolves s s') {i : Investigation}
    (hi : i ∈ s.investigations) (hc : i.status = .completed) : i ∈ s'.investigations := by
  obtain ⟨i', hi', -, -, -, -, heq⟩ := h.investigations i hi
  rwa [← heq hc]

theorem Evolves.trans {s s' s'' : Store} (h : Evolves s s') (h' : Evolves s' s'') :
    Evolves s s'' where
  playbooks := fun p hp => h'.playbooks p (h.playbooks p hp)
  alerts := fun a ha => h'.alerts a (h.alerts a ha)
  versions := by
    intro v hv
    obtain ⟨v', hv', hid, hplaybook, hnumber, heq⟩ := h.versions v hv
    obtain ⟨v'', hv'', hid', hplaybook', hnumber', heq'⟩ := h'.versions v' hv'
    refine ⟨v'', hv'', hid'.trans hid, hplaybook'.trans hplaybook, hnumber'.trans hnumber, ?_⟩
    intro hp
    have he := heq hp
    rw [← he] at hp
    exact (heq' hp).trans he
  frozen := by
    intro v hv hp
    obtain ⟨hnodes, hedges⟩ := h.frozen v hv hp
    obtain ⟨hnodes', hedges'⟩ := h'.frozen v (h.published hv hp) hp
    exact ⟨hnodes'.trans hnodes, hedges'.trans hedges⟩
  investigations := by
    intro i hi
    obtain ⟨i', hi', hid, halert, hversion, hstarted, heq⟩ := h.investigations i hi
    obtain ⟨i'', hi'', hid', halert', hversion', hstarted', heq'⟩ := h'.investigations i' hi'
    refine ⟨i'', hi'', hid'.trans hid, halert'.trans halert, hversion'.trans hversion,
      hstarted'.trans hstarted, ?_⟩
    intro hc
    have he := heq hc
    rw [← he] at hc
    exact (heq' hc).trans he
  steps := fun id => (h.steps id).trans (h'.steps id)
  completed := by
    intro i hi hc
    exact (h'.completed i (h.completed_row hi hc) hc).trans (h.completed i hi hc)

/-- What every operation relies on and guarantees. -/
def rules : Txn.Discipline Store LockKey where
  Inv := Valid
  Evolves := Evolves
  Held := fun l => Same l.1
  refl := Evolves.refl
  trans := Evolves.trans

/-- A part of the tables that is locked is the same below the transaction's own writes. -/
theorem same_of_rely {ls : Locks} {s s' : Store} (key : LockKey) (mode : Txn.LockMode)
    (h : rules.Rely ls s s') (hl : (key, mode) ∈ ls) (ws : List Write) :
    Same key (Txn.applyAll ws s) (Txn.applyAll ws s') :=
  same_applyAll (h.held _ hl) ws

/-- What a commit does to graphs and steps: it replaces the graph of one version at most, and
records one step at most. -/
structure Footprint (replaced : Option UUID) (records : StepRow → Prop) (s s' : Store) : Prop where
  graphs : ∀ v ∈ s.versions, replaced ≠ some v.id →
    s'.nodeRows v.id = s.nodeRows v.id ∧ s'.edgeRows v.id = s.edgeRows v.id
  steps : s'.steps = s.steps ∨ ∃ row, records row ∧ s'.steps = s.steps ++ [row]

theorem Footprint.refl (replaced : Option UUID) (records : StepRow → Prop) (s : Store) :
    Footprint replaced records s s := ⟨fun _ _ _ => ⟨rfl, rfl⟩, .inl rfl⟩

/-! ## Bound versions -/

theorem Bound.evolves {s s' : Store} {i : Investigation} {v : Version} (h : Bound s i v)
    (he : Evolves s s') : Bound s' i v := by
  obtain ⟨hv, hid, hp, p, hpm, hpid, a, ha, haid, htype⟩ := h
  exact ⟨he.published hv hp, hid, hp, p, he.playbooks p hpm, hpid, a, he.alerts a ha, haid, htype⟩

/-- The bound version has the same graph in every later state. -/
theorem Bound.rows {s s' : Store} {i : Investigation} {v : Version} (h : Bound s i v)
    (he : Evolves s s') : s'.nodesOf v.id = s.nodesOf v.id ∧ s'.edgesOf v.id = s.edgesOf v.id := by
  obtain ⟨hnodes, hedges⟩ := he.frozen v h.1 h.2.2.1
  simp only [Store.nodesOf, Store.edgesOf, hnodes, hedges, and_self]

/-- An investigation that did not move stays consistent. -/
theorem Consistent.evolves {s s' : Store} {i : Investigation} (h : Consistent s i)
    (he : Evolves s s') (hsteps : s'.stepsOf i.id = s.stepsOf i.id) : Consistent s' i := by
  obtain ⟨hnumbers, hversion, ⟨v, root, hbound, hroot, hwalk⟩, houtcome, hkeys, hevidence⟩ := h
  obtain ⟨hnodes, hedges⟩ := hbound.rows he
  rw [← hsteps] at hnumbers hversion hwalk hkeys hevidence
  rw [← hedges] at hwalk
  rw [← hbound.2.1, ← hnodes, hbound.2.1] at houtcome
  exact ⟨hnumbers, hversion, ⟨v, root, hbound.evolves he, hroot, hwalk⟩, houtcome, hkeys, hevidence⟩

theorem valid_empty : Valid Store.empty := by
  refine ⟨⟨?_, ?_, ?_, ?_, ?_, ?_, ?_, ?_, ?_, ?_, ?_, ?_, ?_, ?_⟩, ?_, ?_, ?_, ?_, ?_, ?_⟩ <;>
    simp [Store.empty, Store.versionNumbers]

end Interbellum
