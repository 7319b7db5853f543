import Interbellum.Invariant.Design

/-!
# Writes to alerts, investigations and steps

Each keeps `Valid` and lets the state evolve, given what the statement that does it has
checked. A decision makes two writes, the step and the new state of the investigation, and
`Advances` says what they have to do with each other.

* `Advances.valid`, `Advances.evolves`: an accepted decision extends the walk by one edge.
-/

namespace Interbellum

variable {s : Store}

/-! ## Alerts -/

theorem evolves_insertAlert (s : Store) (a : Alert) : Evolves s (s.write (.insertAlert a)) :=
  { Evolves.refl s with alerts := fun _ hb => List.mem_append_left _ hb }

theorem Valid.insertAlert (h : Valid s) {a : Alert} (hid : ∀ b ∈ s.alerts, b.id ≠ a.id)
    (hexternal : ∀ x, a.externalID = some x → ∀ b ∈ s.alerts, b.externalID ≠ some x) :
    Valid (s.write (.insertAlert a)) :=
  { h with
    alert_ids := nodup_map_append h.alert_ids hid
    external_ids := by
      show ((s.alerts ++ [a]).filterMap Alert.externalID).Nodup
      rw [List.filterMap_append, List.nodup_append]
      refine ⟨h.external_ids, ?_, ?_⟩
      · cases hx : a.externalID <;> simp [hx]
      · intro x hx y hy
        obtain ⟨b, hb, hbx⟩ := List.mem_filterMap.mp hx
        have hay : a.externalID = some y := by simpa using hy
        rintro rfl
        exact hexternal x hay b hb hbx
    consistent := fun i hi => (h.consistent i hi).evolves (evolves_insertAlert s a) rfl }

/-! ## Investigations -/

theorem evolves_insertInvestigation (s : Store) (i : Investigation) :
    Evolves s (s.write (.insertInvestigation i)) :=
  { Evolves.refl s with
    investigations := fun j hj =>
      ⟨j, List.mem_append_left _ hj, rfl, rfl, rfl, rfl, fun _ => rfl⟩ }

theorem Valid.stepsOf_nil (h : Valid s) {id : UUID} (hid : ∀ i ∈ s.investigations, i.id ≠ id) :
    s.stepsOf id = [] := by
  rw [Store.stepsOf, List.filter_eq_nil_iff]
  intro r hr he
  obtain ⟨i, hi, hir⟩ := h.step_investigation r hr
  exact hid i hi (hir.trans (of_decide_eq_true he))

/-- A new investigation stands at the root of a published version. -/
theorem Valid.insertInvestigation (h : Valid s) {i : Investigation} {v : Version} {root : Node}
    (hid : ∀ j ∈ s.investigations, j.id ≠ i.id) (hbound : Bound s i v)
    (hroot : v.rootNodeID = some root.id) (hmem : root ∈ s.nodesOf v.id)
    (hcurrent : i.currentNodeID = root.id) (houtcome : Outcome root i) :
    Valid (s.write (.insertInvestigation i)) :=
  { h with
    investigation_ids := nodup_map_append h.investigation_ids hid
    step_investigation := by
      intro r hr
      obtain ⟨j, hj, hjr⟩ := h.step_investigation r hr
      exact ⟨j, List.mem_append_left _ hj, hjr⟩
    consistent := by
      intro j hj
      rcases List.mem_append.mp hj with hj | hj
      · exact (h.consistent j hj).evolves (evolves_insertInvestigation s i) rfl
      · obtain rfl : j = i := List.mem_singleton.mp hj
        have hsteps : (s.write (.insertInvestigation j)).stepsOf j.id = [] := h.stepsOf_nil hid
        refine ⟨?_, ?_, ⟨v, root.id, hbound, hroot, ?_⟩, ?_, ?_, ?_⟩
        · rw [hsteps]
          rfl
        · simp [hsteps]
        · rw [hsteps]
          exact hcurrent.symm
        · intro n hn he
          obtain ⟨r, hr, hrv, rfl⟩ := mem_nodesOf.mp hn
          obtain ⟨r', hr', hrv', rfl⟩ := mem_nodesOf.mp hmem
          obtain rfl : r = r' := List.inj_on_of_nodup_map h.node_ids hr hr' (he.trans hcurrent)
          exact houtcome
        · simp [hsteps]
        · simp [hsteps] }

/-! ## Decisions -/

/-- An investigation stands at a node of its version. -/
theorem Consistent.stands {i : Investigation} (h : Consistent s i) (hs : Design s) :
    ∃ n ∈ s.nodesOf i.playbookVersionID, n.id = i.currentNodeID ∧ Outcome n i := by
  obtain ⟨v, root, hbound, hroot, hwalk⟩ := h.walk
  have hnode : ∃ n ∈ s.nodesOf v.id, n.id = i.currentNodeID := by
    rcases hwalk.end_cases with he | ⟨-, -, e, he, -, -, hto⟩
    · rw [he]
      exact hs.root_node v hbound.1 root hroot
    · obtain ⟨r, hr, hrv, rfl⟩ := mem_edgesOf.mp he
      rw [← hto, ← hrv]
      exact (hs.edge_nodes r hr).2
  rw [hbound.2.1] at hnode
  obtain ⟨n, hn, hid⟩ := hnode
  exact ⟨n, hn, hid, h.outcome n hn hid⟩

/-- What an accepted decision writes: `row` is the step from where `i` stands, and `next`
is where it leads. -/
structure Advances (s : Store) (i : Investigation) (row : StepRow) (next : Investigation) :
    Prop where
  stands : i ∈ s.investigations
  active : i.status = .inProgress
  fresh : ∀ r ∈ s.steps, r.id ≠ row.id
  owner : row.investigationID = i.id
  version : row.playbookVersionID = i.playbookVersionID
  number : row.sequenceNumber = (s.stepsOf i.id).length + 1
  node : row.nodeID = i.currentNodeID
  edge : ∃ e ∈ s.edgesOf i.playbookVersionID, e.id = row.selectedEdgeID ∧
    e.fromNodeID = i.currentNodeID ∧ e.toNodeID = next.currentNodeID
  destination : ∃ n ∈ s.nodesOf i.playbookVersionID, n.id = next.currentNodeID ∧ Outcome n next
  key : ∀ k, row.idempotencyKey = some k → ∀ r ∈ s.stepsOf i.id, r.idempotencyKey ≠ some k
  evidence : row.Readable
  kept : next = i.withState next.currentNodeID next.status next.completedAt next.finalResolution

/-- The state after the two writes of a decision. -/
def Store.advanced (s : Store) (row : StepRow) (next : Investigation) : Store :=
  (s.write (.insertStep row)).write
    (.setState next.id next.currentNodeID next.status next.completedAt next.finalResolution)

namespace Advances

variable {i next : Investigation} {row : StepRow}

theorem next_id (h : Advances s i row next) : next.id = i.id := by
  rw [h.kept]
  rfl

theorem stepsOf_self (h : Advances s i row next) :
    (s.advanced row next).stepsOf i.id = s.stepsOf i.id ++ [row] := by
  simp [Store.advanced, Store.stepsOf, Store.write, h.owner]

theorem mem_stepsOf (h : Advances s i row next) : row ∈ (s.advanced row next).stepsOf i.id := by
  rw [h.stepsOf_self]
  exact List.mem_append_right _ (List.mem_singleton_self _)

theorem stepsOf_of_ne (h : Advances s i row next) {id : UUID} (hid : id ≠ i.id) :
    (s.advanced row next).stepsOf id = s.stepsOf id := by
  have hne : row.investigationID ≠ id := by
    rw [h.owner]
    exact hid.symm
  simp [Store.advanced, Store.stepsOf, Store.write, hne]

/-- The investigations afterwards: the one that moved, and the others. -/
theorem mem_investigations (h : Advances s i row next) (hs : Valid s) {j : Investigation} :
    j ∈ (s.advanced row next).investigations ↔
      j = next ∨ j ∈ s.investigations ∧ j.id ≠ i.id := by
  have hnext : i.withState next.currentNodeID next.status next.completedAt
      next.finalResolution = next := h.kept.symm
  rw [Store.advanced, Store.write, mem_updateWhere]
  simp only [h.next_id, decide_eq_true_eq, decide_eq_false_iff_not]
  constructor
  · rintro (hj | ⟨k, hk, hid, rfl⟩)
    · exact .inr hj
    · obtain rfl : k = i := List.inj_on_of_nodup_map hs.investigation_ids hk h.stands hid
      exact .inl hnext
  · rintro (rfl | hj)
    · exact .inr ⟨i, h.stands, rfl, hnext⟩
    · exact .inl hj

theorem evolves (h : Advances s i row next) (hs : Valid s) : Evolves s (s.advanced row next) :=
  { Evolves.refl s with
    investigations := by
      intro j hj
      by_cases hid : j.id = i.id
      · obtain rfl : j = i := List.inj_on_of_nodup_map hs.investigation_ids hj h.stands hid
        refine ⟨next, (h.mem_investigations hs).mpr (.inl rfl), h.next_id, ?_, ?_, ?_, ?_⟩
        · rw [h.kept]
          rfl
        · rw [h.kept]
          rfl
        · rw [h.kept]
          rfl
        · intro hc
          rw [h.active] at hc
          cases hc
      · exact ⟨j, (h.mem_investigations hs).mpr (.inr ⟨hj, hid⟩), rfl, rfl, rfl, rfl,
          fun _ => rfl⟩
    steps := by
      intro id
      by_cases hid : id = i.id
      · subst hid
        rw [h.stepsOf_self]
        exact List.prefix_append _ _
      · exact (h.stepsOf_of_ne hid).symm ▸ List.prefix_rfl
    completed := by
      intro j hj hc
      refine h.stepsOf_of_ne ?_
      intro hid
      obtain rfl : j = i := List.inj_on_of_nodup_map hs.investigation_ids hj h.stands hid
      rw [h.active] at hc
      cases hc }

/-- The investigation that moved is consistent again. -/
theorem consistent (h : Advances s i row next) (hs : Valid s) :
    Consistent (s.advanced row next) next := by
  obtain ⟨hnumbers, hversion, ⟨v, root, hbound, hroot, hwalk⟩, houtcome, hkeys, hevidence⟩ :=
    hs.consistent i h.stands
  have hnextversion : next.playbookVersionID = i.playbookVersionID := by
    rw [h.kept]
    rfl
  have hnextalert : next.alertID = i.alertID := by
    rw [h.kept]
    rfl
  have hsteps := h.stepsOf_self
  rw [← h.next_id] at hsteps
  refine ⟨?_, ?_, ⟨v, root, ?_, hroot, ?_⟩, ?_, ?_, ?_⟩
  · rw [hsteps, h.next_id, List.map_append, hnumbers, List.map_singleton, h.number,
      List.length_append, List.length_singleton, List.range'_concat]
    congr 2
    omega
  · intro r hr
    rw [hsteps, h.next_id] at hr
    rw [hnextversion]
    rcases List.mem_append.mp hr with hr | hr
    · exact hversion r hr
    · rw [List.mem_singleton.mp hr]
      exact h.version
  · obtain ⟨hv, hid, hp, p, hpm, hpid, a, ha, haid, htype⟩ := hbound.evolves (h.evolves hs)
    exact ⟨hv, hid.trans hnextversion.symm, hp, p, hpm, hpid, a, ha,
      haid.trans hnextalert.symm, htype⟩
  · obtain ⟨e, he, hid, hfrom, hto⟩ := h.edge
    rw [← hbound.2.1] at he
    rw [hsteps, h.next_id, List.map_append, List.map_singleton]
    apply Digraph.Trail.concat_iff.mpr
    rw [h.node]
    exact ⟨hwalk, e, he, hid, hfrom, hto⟩
  · intro n hn he
    obtain ⟨m, hm, hid, hm'⟩ := h.destination
    rw [hnextversion] at hn
    obtain ⟨r, hr, -, rfl⟩ := mem_nodesOf.mp hn
    obtain ⟨r', hr', -, rfl⟩ := mem_nodesOf.mp hm
    obtain rfl : r = r' := List.inj_on_of_nodup_map hs.node_ids hr hr' (he.trans hid.symm)
    exact hm'
  · rw [hsteps, h.next_id, List.filterMap_append, List.nodup_append]
    refine ⟨hkeys, ?_, ?_⟩
    · cases hk : row.idempotencyKey <;> simp [hk]
    · intro k hk k' hk'
      obtain ⟨r, hr, hrk⟩ := List.mem_filterMap.mp hk
      have hrow : row.idempotencyKey = some k' := by simpa using hk'
      rintro rfl
      exact h.key k hrow r hr hrk
  · intro r hr
    rw [hsteps, h.next_id] at hr
    rcases List.mem_append.mp hr with hr | hr
    · exact hevidence r hr
    · rw [List.mem_singleton.mp hr]
      exact h.evidence

theorem valid (h : Advances s i row next) (hs : Valid s) : Valid (s.advanced row next) :=
  { hs with
    investigation_ids := by
      have hids : (s.advanced row next).investigations.map Investigation.id =
          s.investigations.map Investigation.id :=
        map_updateWhere (f := Investigation.withState _ _ _ _) (fun _ => rfl) _
      rw [hids]
      exact hs.investigation_ids
    step_ids := nodup_map_append hs.step_ids h.fresh
    step_investigation := by
      intro r hr
      have howner : ∃ j ∈ s.investigations, j.id = r.investigationID := by
        rcases List.mem_append.mp hr with hr | hr
        · exact hs.step_investigation r hr
        · rw [List.mem_singleton.mp hr]
          exact ⟨i, h.stands, h.owner.symm⟩
      obtain ⟨j, hj, hid⟩ := howner
      obtain ⟨j', hj', hid', -⟩ := (h.evolves hs).investigations j hj
      exact ⟨j', hj', hid'.trans hid⟩
    consistent := by
      intro j hj
      rcases (h.mem_investigations hs).mp hj with rfl | ⟨hj, hid⟩
      · exact h.consistent hs
      · exact (hs.consistent j hj).evolves (h.evolves hs) (h.stepsOf_of_ne hid) }

end Advances

end Interbellum
