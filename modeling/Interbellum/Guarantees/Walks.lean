import Interbellum.Server.Operations

/-!
# Recorded steps are a walk

The database only checks that a step's node and edge belong to the version of its
investigation. That the steps chain, and that the pointer of the investigation agrees with
them, holds because every decision is taken from where the investigation stands and the
graph it was taken in is frozen.

* `recorded_walk`: in every reachable state the steps of an investigation are a walk.
* `Consistent.visited_nodup`: and no node is visited twice.
-/

namespace Interbellum

variable {s : Store}

/-- A walk read off the rows of the steps, in the order of their sequence numbers. -/
structure Traverses (edges : List Edge) (root current : UUID) (steps : List StepRow) : Prop where
  numbers : steps.map StepRow.sequenceNumber = List.range' 1 steps.length
  first : ∀ r, steps.head? = some r → r.nodeID = root
  leaves : ∀ r ∈ steps, ∃ e ∈ edges, e.id = r.selectedEdgeID ∧ e.fromNodeID = r.nodeID
  chained : ∀ k r r', steps[k]? = some r → steps[k + 1]? = some r' →
    ∃ e ∈ edges, e.id = r.selectedEdgeID ∧ r'.nodeID = e.toNodeID
  empty : steps = [] → current = root
  last : ∀ r, steps.getLast? = some r →
    ∃ e ∈ edges, e.id = r.selectedEdgeID ∧ current = e.toNodeID

theorem traverses_of_walk {edges : List Edge} {root current : UUID} {steps : List StepRow}
    (h : Walk edges root (steps.map StepRow.taken) current)
    (hnumbers : steps.map StepRow.sequenceNumber = List.range' 1 steps.length) :
    Traverses edges root current steps where
  numbers := hnumbers
  first := by
    intro r hr
    exact h.first (x := r.taken) (by rw [List.head?_map, hr]; rfl)
  leaves := by
    intro r hr
    obtain ⟨-, e, he, hid, hfrom, -⟩ := h.leaves r.taken (List.mem_map_of_mem hr)
    exact ⟨e, he, hid, hfrom⟩
  chained := by
    intro k r r' hr hr'
    obtain ⟨e, he, hid, -, hto⟩ := h.chained (k := k) (x := r.taken) (y := r'.taken)
      (by rw [List.getElem?_map, hr]; rfl) (by rw [List.getElem?_map, hr']; rfl)
    exact ⟨e, he, hid, hto.symm⟩
  empty := by
    rintro rfl
    exact h.symm
  last := by
    intro r hr
    obtain ⟨e, he, hid, -, hto⟩ := h.last (x := r.taken) (by rw [List.getLast?_map, hr]; rfl)
    exact ⟨e, he, hid, hto.symm⟩

/-- The steps of every investigation in a reachable state are a walk through the published
version it is bound to, from the root to the current node; the investigation is completed,
with the resolution of that node, exactly when the node is terminal. -/
theorem recorded_walk (h : Reachable s) {i : Investigation} (hi : i ∈ s.investigations) :
    ∃ v ∈ s.versions, v.id = i.playbookVersionID ∧ v.status = .published ∧
      ∃ root, v.rootNodeID = some root ∧
        Traverses (s.edgesOf v.id) root i.currentNodeID (s.stepsOf i.id) ∧
        (∀ r ∈ s.stepsOf i.id, r.playbookVersionID = v.id) ∧
        ∃ n ∈ s.nodesOf v.id, n.id = i.currentNodeID ∧
          (i.status = .completed ↔ n.kind = .terminal) ∧
          (n.kind = .terminal →
            i.completedAt.isSome ∧ i.finalResolution = n.terminalResolution) ∧
          (n.kind ≠ .terminal → i.completedAt = none ∧ i.finalResolution = none) := by
  have hs := h.valid
  have hconsistent := hs.consistent i hi
  obtain ⟨v, root, hbound, hroot, hwalk⟩ := hconsistent.walk
  obtain ⟨n, hn, hid, houtcome⟩ := hconsistent.stands hs.toDesign
  have hversion := hconsistent.version
  rw [← hbound.2.1] at hn hversion
  refine ⟨v, hbound.1, hbound.2.1, hbound.2.2.1, root, hroot,
    traverses_of_walk hwalk hconsistent.numbers, hversion, n, hn, hid, ?_⟩
  rcases houtcome with ⟨hk, hstatus, hat, hresolution⟩ | ⟨hk, hstatus, hat, hresolution⟩
  · simp [hk, hstatus, hat, hresolution]
  · simp [hk, hstatus, hat, hresolution]

/-- Two decisions, the second of them taken where the first one led, to the end. -/
theorem recorded_walk_triage :
    ((Triage.completed.stepsOf 4).map fun r => (r.sequenceNumber, r.nodeID, r.selectedEdgeID)) =
        [(1, 10, 20), (2, 11, 22)] ∧
      ∃ v ∈ Triage.completed.versions, v.id = 2 ∧ ∃ root, v.rootNodeID = some root ∧
        Traverses (Triage.completed.edgesOf v.id) root 12 (Triage.completed.stepsOf 4) ∧
        ∃ n ∈ Triage.completed.nodesOf v.id, n.id = 12 ∧ n.kind = .terminal ∧
          n.terminalResolution = some "resolved" := by
  have hi : ⟨4, 3, 2, .completed, 12, 10, some 11, some "resolved"⟩ ∈
      Triage.completed.investigations := by decide +kernel
  obtain ⟨v, hv, hid, -, root, hroot, htraverses, -, n, hn, hnode, hterminal, hresolution, -⟩ :=
    recorded_walk Triage.reachable_completed hi
  have hkind : n.kind = .terminal := hterminal.mp rfl
  exact ⟨by decide +kernel, v, hv, hid, root, hroot, htraverses, n, hn, hnode, hkind,
    (hresolution hkind).2.symm⟩

/-! ## Visited nodes -/

theorem Design.publishable (hs : Design s) {v : Version} (hv : v ∈ s.versions)
    (hp : v.status = .published) : (s.graphOf v).Publishable :=
  Graph.validate_nil_iff_publishable.mp (hs.published v hv hp)

/-- In a published graph no edge can be followed back to where it starts. -/
theorem Design.acyclic (hs : Design s) {v : Version} (hv : v ∈ s.versions)
    (hp : v.status = .published) :
    ∀ a, ¬ Relation.TransGen (fun a b => ∃ id, Joins (s.edgesOf v.id) id a b) a a := by
  intro a ha
  refine (hs.publishable hv hp).acyclic a (Relation.TransGen.mono ?_ a a ha)
  rintro b c ⟨-, e, he, -, hfrom, hto⟩
  exact ⟨e, mem_graphOf_edges.mpr he, hfrom, hto⟩

theorem Bound.publishable {i : Investigation} {v : Version} (h : Bound s i v) (hs : Design s) :
    (s.graphOf v).Publishable := hs.publishable h.1 h.2.2.1

theorem Bound.acyclic {i : Investigation} {v : Version} (h : Bound s i v) (hs : Design s) :
    ∀ a, ¬ Relation.TransGen (fun a b => ∃ id, Joins (s.edgesOf v.id) id a b) a a :=
  hs.acyclic h.1 h.2.2.1

/-- No edge has the id of another. -/
theorem Design.joins_unique (hs : Design s) {version id a b a' b' : UUID}
    (h : Joins (s.edgesOf version) id a b) (h' : Joins (s.edgesOf version) id a' b') :
    a = a' ∧ b = b' := by
  obtain ⟨e, he, hid, hfrom, hto⟩ := h
  obtain ⟨e', he', hid', hfrom', hto'⟩ := h'
  obtain ⟨r, hr, -, rfl⟩ := mem_edgesOf.mp he
  obtain ⟨r', hr', -, rfl⟩ := mem_edgesOf.mp he'
  obtain rfl : r = r' := List.inj_on_of_nodup_map hs.edge_ids hr hr' (hid.trans hid'.symm)
  exact ⟨hfrom.symm.trans hfrom', hto.symm.trans hto'⟩

/-- The nodes an investigation has been at, the current one included. -/
def visitedBy (s : Store) (i : Investigation) : List UUID :=
  Digraph.visited ((s.stepsOf i.id).map StepRow.taken) i.currentNodeID

theorem visitedBy_eq (i : Investigation) :
    visitedBy s i = (s.stepsOf i.id).map StepRow.nodeID ++ [i.currentNodeID] := by
  rw [visitedBy, Digraph.visited, List.map_map]
  rfl

theorem Consistent.visited_nodup {i : Investigation} (h : Consistent s i) (hs : Design s) :
    (visitedBy s i).Nodup := by
  obtain ⟨v, root, hbound, -, hwalk⟩ := h.walk
  exact hwalk.nodup (hbound.acyclic hs)

/-- Steps at different nodes select different edges. -/
theorem Consistent.edges_nodup {i : Investigation} (h : Consistent s i) (hs : Design s) :
    ((s.stepsOf i.id).map StepRow.selectedEdgeID).Nodup := by
  obtain ⟨v, root, hbound, -, hwalk⟩ := h.walk
  have hlabels := hwalk.labels_nodup (hbound.acyclic hs) ?_
  · rw [List.map_map] at hlabels
    exact hlabels
  · exact fun id a b a' b' hjoins hjoins' => (hs.joins_unique hjoins hjoins').1

/-- The ends of an edge are nodes of its version. -/
theorem Joins.nodes (hs : Design s) {version id a b : UUID} (h : Joins (s.edgesOf version) id a b) :
    a ∈ (s.nodesOf version).map Node.id ∧ b ∈ (s.nodesOf version).map Node.id := by
  obtain ⟨e, he, -, rfl, rfl⟩ := h
  obtain ⟨r, hr, rfl, rfl⟩ := mem_edgesOf.mp he
  obtain ⟨⟨n, hn, hnid⟩, m, hm, hmid⟩ := hs.edge_nodes r hr
  exact ⟨List.mem_map.mpr ⟨n, hn, hnid⟩, List.mem_map.mpr ⟨m, hm, hmid⟩⟩

theorem Consistent.visited_subset {i : Investigation} (h : Consistent s i) (hs : Design s) :
    visitedBy s i ⊆ (s.nodesOf i.playbookVersionID).map Node.id := by
  obtain ⟨v, root, hbound, hroot, hwalk⟩ := h.walk
  intro id hid
  rcases List.mem_append.mp hid with hid | hid
  · obtain ⟨x, hx, rfl⟩ := List.mem_map.mp hid
    obtain ⟨c, hjoins⟩ := hwalk.leaves x hx
    rw [hbound.2.1] at hjoins
    exact (hjoins.nodes hs).1
  · obtain ⟨n, hn, hnid, -⟩ := h.stands hs
    rw [List.mem_singleton.mp hid]
    exact List.mem_map.mpr ⟨n, hn, hnid⟩

/-- There are fewer steps than nodes. -/
theorem Consistent.length_lt {i : Investigation} (h : Consistent s i) (hs : Design s) :
    (s.stepsOf i.id).length < (s.nodesOf i.playbookVersionID).length := by
  have hle := (List.subperm_of_subset (h.visited_nodup hs) (h.visited_subset hs)).length_le
  simp only [visitedBy_eq, List.length_append, List.length_map, List.length_singleton] at hle
  omega

end Interbellum
