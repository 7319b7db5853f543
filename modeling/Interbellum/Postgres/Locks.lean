import Interbellum.Postgres.Store

/-!
# What the locks protect

`Same key` is the part of the tables that a lock on `key` protects: the rows found under the
key, and for a version and an investigation also the rows that are only written under a lock
on it.

* `same_write`: a write has the same effect on a protected part wherever that part is the same.
* `same_of_compatible`: writes that hold the locks they need leave alone what any compatible
  lock protects.
-/

namespace Interbellum

/-- What can be locked: a row by its table and id, or an entry of another unique index. -/
inductive LockKey where
  | playbook (id : UUID)
  | version (id : UUID)
  | versionNumber (playbookID : UUID) (version : Nat)
  | node (id : UUID)
  | edge (id : UUID)
  | edgeLabel (fromNodeID : UUID) (label : String)
  | alert (id : UUID)
  | externalID (externalID : String)
  | investigation (id : UUID)
  | step (id : UUID)
  | stepSequence (investigationID : UUID) (sequenceNumber : Nat)
  | stepKey (investigationID : UUID) (idempotencyKey : String)
  deriving DecidableEq

abbrev Locks := Txn.Locks LockKey

/-- The two states agree on what a lock on the key protects. The keys of the last line are
locked to make a second insert wait; what they find is protected by another lock as well. -/
def Same : LockKey → Store → Store → Prop
  | .playbook id, s, s' =>
    s.playbooks.filter (fun p => p.id = id) = s'.playbooks.filter (fun p => p.id = id) ∧
      s.versionNumbers id = s'.versionNumbers id
  | .version id, s, s' =>
    s.versionRows id = s'.versionRows id ∧ s.nodeRows id = s'.nodeRows id ∧
      s.edgeRows id = s'.edgeRows id
  | .node id, s, s' =>
    s.nodes.filter (fun r => r.node.id = id) = s'.nodes.filter (fun r => r.node.id = id)
  | .edge id, s, s' =>
    s.edges.filter (fun r => r.edge.id = id) = s'.edges.filter (fun r => r.edge.id = id)
  | .edgeLabel from' label, s, s' =>
    s.edges.filter (fun r => r.edge.fromNodeID = from' ∧ r.edge.label = label) =
      s'.edges.filter (fun r => r.edge.fromNodeID = from' ∧ r.edge.label = label)
  | .investigation id, s, s' =>
    s.investigationRows id = s'.investigationRows id ∧ s.stepsOf id = s'.stepsOf id
  | .step id, s, s' =>
    s.steps.filter (fun r => r.id = id) = s'.steps.filter (fun r => r.id = id)
  | .versionNumber _ _, _, _ | .alert _, _, _ | .externalID _, _, _ | .stepSequence _ _, _, _
  | .stepKey _ _, _, _ => True

/-- The keys whose protected part a write changes. -/
def Write.keys : Write → List LockKey
  | .insertPlaybook p => [.playbook p.id]
  | .insertVersion v => [.version v.id, .playbook v.playbookID]
  | .setRoot id _ => [.version id]
  | .setPublished id _ => [.version id]
  | .insertNode row => [.node row.node.id, .version row.versionID]
  | .deleteNodes id nodes => .version id :: nodes.map fun n => .node n.id
  | .insertEdge row =>
    [.edge row.edge.id, .edgeLabel row.edge.fromNodeID row.edge.label, .version row.versionID]
  | .deleteEdges id edges =>
    .version id :: edges.flatMap fun e => [.edge e.id, .edgeLabel e.fromNodeID e.label]
  | .insertAlert _ => []
  | .insertInvestigation i => [.investigation i.id]
  | .setState id _ _ _ _ => [.investigation id]
  | .insertStep row => [.step row.id, .investigation row.investigationID]

/-- The locks suffice for the write. -/
def Covered (ls : Locks) (w : Write) : Prop := ∀ key ∈ w.keys, (key, .update) ∈ ls

theorem Covered.mono {ls ls' : Locks} {w : Write} (h : Covered ls w) (hls : ∀ l ∈ ls, l ∈ ls') :
    Covered ls' w := fun key hkey => hls _ (h key hkey)

/-! ## Filters and updates -/

section

variable {α β : Type} {p q : α → Bool} {f : α → α}

theorem filter_updateWhere (hq : ∀ a, q (f a) = q a) (rows : List α) :
    (updateWhere p f rows).filter q = updateWhere p f (rows.filter q) := by
  rw [updateWhere, List.filter_map, updateWhere]
  congr 1
  apply List.filter_congr
  intro a _
  simp only [Function.comp]
  split
  · exact hq a
  · rfl

theorem map_updateWhere {g : α → β} (hg : ∀ a, g (f a) = g a) (rows : List α) :
    (updateWhere p f rows).map g = rows.map g := by
  rw [updateWhere, List.map_map]
  apply List.map_congr_left
  intro a _
  simp only [Function.comp]
  split
  · exact hg a
  · rfl

theorem updateWhere_of_not {rows : List α} (h : ∀ a ∈ rows, p a = false) :
    updateWhere p f rows = rows := by
  rw [updateWhere]
  conv_rhs => rw [← List.map_id rows]
  apply List.map_congr_left
  intro a ha
  simp [h a ha]

theorem mem_updateWhere {a : α} {rows : List α} :
    a ∈ updateWhere p f rows ↔
      (a ∈ rows ∧ p a = false) ∨ ∃ b ∈ rows, p b = true ∧ f b = a := by
  simp only [updateWhere, List.mem_map]
  constructor
  · rintro ⟨b, hb, rfl⟩
    by_cases hp : p b = true
    · exact .inr ⟨b, hb, hp, by simp [hp]⟩
    · simp only [Bool.not_eq_true] at hp
      exact .inl ⟨by simpa [hp] using hb, by simp [hp]⟩
  · rintro (⟨ha, hp⟩ | ⟨b, hb, hp, rfl⟩)
    · exact ⟨a, ha, by simp [hp]⟩
    · exact ⟨b, hb, by simp [hp]⟩

end

theorem any_of_filter_eq {α : Type} {p : α → Bool} {l l' : List α}
    (h : l.filter p = l'.filter p) : l'.any p = l.any p := by
  rw [Bool.eq_iff_iff, List.any_eq_true, List.any_eq_true]
  have hmem : ∀ a, (a ∈ l' ∧ p a = true) ↔ (a ∈ l ∧ p a = true) := by
    intro a
    rw [← List.mem_filter, ← List.mem_filter, h]
  exact ⟨fun ⟨a, ha⟩ => ⟨a, (hmem a).mp ha⟩, fun ⟨a, ha⟩ => ⟨a, (hmem a).mpr ha⟩⟩

/-! ## What writes do to the protected parts -/

theorem Same.refl (key : LockKey) (s : Store) : Same key s s := by
  cases key <;> simp [Same]

theorem Same.symm {key : LockKey} {s s' : Store} (h : Same key s s') : Same key s' s := by
  cases key <;> simp_all [Same]

theorem Same.trans {key : LockKey} {s s' s'' : Store} (h : Same key s s')
    (h' : Same key s' s'') : Same key s s'' := by
  cases key <;> simp only [Same] at h h' ⊢ <;> grind

theorem same_write {key : LockKey} {s s' : Store} (h : Same key s s') (w : Write) :
    Same key (s.write w) (s'.write w) := by
  have hcomm : ∀ {α : Type} (p q : α → Bool) (l : List α),
      (l.filter p).filter q = (l.filter q).filter p := by
    intro α p q l
    rw [List.filter_filter, List.filter_filter]
    exact List.filter_congr fun _ _ => Bool.and_comm _ _
  cases key with
  | playbook id =>
    obtain ⟨hrows, hnumbers⟩ := h
    simp only [Store.versionNumbers] at hnumbers
    cases w <;> simp only [Same, Store.write, Store.versionNumbers, List.filter_append,
      List.map_append, hrows, hnumbers, and_self, true_and]
    case setRoot =>
      rw [filter_updateWhere, filter_updateWhere, map_updateWhere, map_updateWhere, hnumbers] <;>
        intro _ <;> rfl
    case setPublished =>
      rw [filter_updateWhere, filter_updateWhere, map_updateWhere, map_updateWhere, hnumbers] <;>
        intro _ <;> rfl
  | version id =>
    obtain ⟨hrows, hnodes, hedges⟩ := h
    simp only [Store.versionRows, Store.nodeRows, Store.edgeRows] at hrows hnodes hedges
    cases w <;> simp only [Same, Store.write, Store.versionRows, Store.nodeRows, Store.edgeRows,
      List.filter_append, hrows, hnodes, hedges, and_self, true_and, and_true]
    case setRoot =>
      rw [filter_updateWhere, filter_updateWhere, hrows] <;> intro _ <;> rfl
    case setPublished =>
      rw [filter_updateWhere, filter_updateWhere, hrows] <;> intro _ <;> rfl
    case deleteNodes => rw [hcomm, hnodes, hcomm]
    case deleteEdges => rw [hcomm, hedges, hcomm]
  | node id =>
    simp only [Same] at h
    cases w <;> simp only [Same, Store.write, List.filter_append, h]
    case deleteNodes => rw [hcomm, h, hcomm]
  | edge id =>
    simp only [Same] at h
    cases w <;> simp only [Same, Store.write, List.filter_append, h]
    case deleteEdges => rw [hcomm, h, hcomm]
  | edgeLabel from' label =>
    simp only [Same] at h
    cases w <;> simp only [Same, Store.write, List.filter_append, h]
    case deleteEdges => rw [hcomm, h, hcomm]
  | investigation id =>
    obtain ⟨hrows, hsteps⟩ := h
    simp only [Store.investigationRows, Store.stepsOf] at hrows hsteps
    cases w <;> simp only [Same, Store.write, Store.investigationRows, Store.stepsOf,
      List.filter_append, hrows, hsteps, and_self, and_true]
    case setState =>
      rw [filter_updateWhere, filter_updateWhere, hrows] <;> intro _ <;> rfl
  | step id =>
    simp only [Same] at h
    cases w <;> simp only [Same, Store.write, List.filter_append, h]
  | versionNumber | alert | externalID | stepSequence | stepKey => trivial

theorem same_applyAll {key : LockKey} {s s' : Store} (h : Same key s s') (ws : List Write) :
    Same key (Txn.applyAll ws s) (Txn.applyAll ws s') := by
  induction ws generalizing s s' with
  | nil => exact h
  | cons w ws ih => exact ih (same_write h w)

theorem filter_append_of_ne {α : Type} {p : α → Bool} {row : α} (rows : List α)
    (h : p row = false) : rows.filter p = (rows ++ [row]).filter p := by
  simp [h]

theorem filter_updateWhere_of_disjoint {α : Type} {p q : α → Bool} {f : α → α} (rows : List α)
    (hf : ∀ r, q (f r) = q r) (h : ∀ r, q r = true → p r = false) :
    rows.filter q = (updateWhere p f rows).filter q := by
  rw [filter_updateWhere hf, updateWhere_of_not]
  intro r hr
  exact h r (List.mem_filter.mp hr).2

theorem filter_filter_of_subset {α : Type} {p q : α → Bool} (rows : List α)
    (h : ∀ r, q r = true → p r = true) : rows.filter q = (rows.filter p).filter q := by
  rw [List.filter_filter]
  apply List.filter_congr
  intro r _
  by_cases hq : q r = true
  · simp [hq, h r hq]
  · simp [hq]

/-- A write leaves alone what other keys than its own protect. -/
theorem same_playbook {w : Write} {id : UUID} (h : LockKey.playbook id ∉ w.keys) (s : Store) :
    Same (.playbook id) s (s.write w) := by
  cases w <;> simp only [Same, Store.write, Store.versionNumbers, and_self, true_and, and_true]
  case insertPlaybook p =>
    have hne : p.id ≠ id := by simpa [Write.keys, eq_comm] using h
    exact filter_append_of_ne _ (by simp [hne])
  case insertVersion v =>
    have hne : v.playbookID ≠ id := by simpa [Write.keys, eq_comm] using h
    simp [hne]
  case setRoot => rw [filter_updateWhere, map_updateWhere] <;> intro _ <;> rfl
  case setPublished => rw [filter_updateWhere, map_updateWhere] <;> intro _ <;> rfl

theorem same_version {w : Write} {id : UUID} (h : LockKey.version id ∉ w.keys) (s : Store) :
    Same (.version id) s (s.write w) := by
  cases w <;> simp only [Same, Store.write, Store.versionRows, Store.nodeRows, Store.edgeRows,
    and_self, true_and, and_true]
  case insertVersion v =>
    have hne : v.id ≠ id := by simpa [Write.keys, eq_comm] using h
    exact filter_append_of_ne _ (by simp [hne])
  case setRoot id' _ =>
    have hne : id ≠ id' := by simpa [Write.keys] using h
    refine filter_updateWhere_of_disjoint _ (fun _ => rfl) ?_
    intro v hv
    simpa [of_decide_eq_true hv] using hne
  case setPublished id' _ =>
    have hne : id ≠ id' := by simpa [Write.keys] using h
    refine filter_updateWhere_of_disjoint _ (fun _ => rfl) ?_
    intro v hv
    simpa [of_decide_eq_true hv] using hne
  case insertNode row =>
    have hne : row.versionID ≠ id := by
      simpa [Write.keys, eq_comm] using h
    exact filter_append_of_ne _ (by simp [hne])
  case deleteNodes id' nodes =>
    have hne : id ≠ id' := by
      intro he
      exact h (by simp [Write.keys, he])
    refine filter_filter_of_subset _ ?_
    intro r hr
    simp [of_decide_eq_true hr, hne]
  case insertEdge row =>
    have hne : row.versionID ≠ id := by
      simpa [Write.keys, eq_comm] using h
    exact filter_append_of_ne _ (by simp [hne])
  case deleteEdges id' edges =>
    have hne : id ≠ id' := by
      intro he
      exact h (by simp [Write.keys, he])
    refine filter_filter_of_subset _ ?_
    intro r hr
    simp [of_decide_eq_true hr, hne]

theorem same_node {w : Write} {id : UUID} (h : LockKey.node id ∉ w.keys) (s : Store) :
    Same (.node id) s (s.write w) := by
  cases w <;> simp only [Same, Store.write]
  case insertNode row =>
    have hne : row.node.id ≠ id := by simpa [Write.keys, eq_comm] using h
    exact filter_append_of_ne _ (by simp [hne])
  case deleteNodes id' nodes =>
    refine filter_filter_of_subset _ ?_
    intro r hr
    have hr : r.node.id = id := of_decide_eq_true hr
    have hmem : r.node ∉ nodes := by
      intro hm
      exact h (by simpa [Write.keys] using ⟨r.node, hm, hr⟩)
    simp [hmem]

theorem same_edge {w : Write} {id : UUID} (h : LockKey.edge id ∉ w.keys) (s : Store) :
    Same (.edge id) s (s.write w) := by
  cases w <;> simp only [Same, Store.write]
  case insertEdge row =>
    have hne : row.edge.id ≠ id := by simpa [Write.keys, eq_comm] using h
    exact filter_append_of_ne _ (by simp [hne])
  case deleteEdges id' edges =>
    refine filter_filter_of_subset _ ?_
    intro r hr
    have hr : r.edge.id = id := of_decide_eq_true hr
    have hmem : r.edge ∉ edges := by
      intro hm
      exact h (by simpa [Write.keys] using ⟨r.edge, hm, hr.symm⟩)
    simp [hmem]

theorem same_edgeLabel {w : Write} {from' : UUID} {label : String}
    (h : LockKey.edgeLabel from' label ∉ w.keys) (s : Store) :
    Same (.edgeLabel from' label) s (s.write w) := by
  cases w <;> simp only [Same, Store.write]
  case insertEdge row =>
    have hne : ¬(row.edge.fromNodeID = from' ∧ row.edge.label = label) := by
      rintro ⟨hf, hl⟩
      exact h (by simp [Write.keys, hf, hl])
    exact filter_append_of_ne _ (decide_eq_false hne)
  case deleteEdges id' edges =>
    refine filter_filter_of_subset _ ?_
    intro r hr
    obtain ⟨hf, hl⟩ : r.edge.fromNodeID = from' ∧ r.edge.label = label := of_decide_eq_true hr
    have hmem : r.edge ∉ edges := by
      intro hm
      exact h (by simpa [Write.keys] using ⟨r.edge, hm, hf.symm, hl.symm⟩)
    simp [hmem]

theorem same_investigation {w : Write} {id : UUID} (h : LockKey.investigation id ∉ w.keys)
    (s : Store) :
    Same (.investigation id) s (s.write w) := by
  cases w <;> simp only [Same, Store.write, Store.investigationRows, Store.stepsOf, and_self,
    true_and, and_true]
  case insertInvestigation i =>
    have hne : i.id ≠ id := by simpa [Write.keys, eq_comm] using h
    exact filter_append_of_ne _ (by simp [hne])
  case setState id' _ _ _ _ =>
    have hne : id ≠ id' := by simpa [Write.keys] using h
    refine filter_updateWhere_of_disjoint _ (fun _ => rfl) ?_
    intro i hi
    simpa [of_decide_eq_true hi] using hne
  case insertStep row =>
    have hne : row.investigationID ≠ id := by simpa [Write.keys, eq_comm] using h
    exact filter_append_of_ne _ (by simp [hne])

theorem same_step {w : Write} {id : UUID} (h : LockKey.step id ∉ w.keys) (s : Store) :
    Same (.step id) s (s.write w) := by
  cases w <;> simp only [Same, Store.write]
  case insertStep row =>
    have hne : row.id ≠ id := by simpa [Write.keys, eq_comm] using h
    exact filter_append_of_ne _ (by simp [hne])

theorem same_of_not_mem_keys {key : LockKey} {w : Write} (h : key ∉ w.keys) (s : Store) :
    Same key s (s.write w) := by
  cases key with
  | playbook => exact same_playbook h s
  | version => exact same_version h s
  | node => exact same_node h s
  | edge => exact same_edge h s
  | edgeLabel => exact same_edgeLabel h s
  | investigation => exact same_investigation h s
  | step => exact same_step h s
  | versionNumber | alert | externalID | stepSequence | stepKey => trivial

theorem same_of_not_mem_all {key : LockKey} {ws : List Write} (h : ∀ w ∈ ws, key ∉ w.keys)
    (s : Store) : Same key s (Txn.applyAll ws s) := by
  induction ws generalizing s with
  | nil => exact Same.refl _ s
  | cons w ws ih =>
    exact (same_of_not_mem_keys (h w List.mem_cons_self) s).trans
      (ih (fun w' hw' => h w' (List.mem_cons_of_mem _ hw')) _)

/-- Covered writes leave alone what locks compatible with theirs protect. -/
theorem same_of_compatible {ls ls' : Locks} {ws : List Write} (h : ∀ w ∈ ws, Covered ls w)
    (hcompatible : Txn.Compatible ls ls') {l : LockKey × Txn.LockMode} (hl : l ∈ ls')
    (s : Store) : Same l.1 s (Txn.applyAll ws s) := by
  refine same_of_not_mem_all ?_ s
  intro w hw hkey
  have hconflict := hcompatible _ (h w hw _ hkey) l hl rfl
  simp [Txn.LockMode.conflicts] at hconflict

end Interbellum
