import Interbellum.Guarantees.Choices

/-!
# Investigations come to an end

There is no depth limit and no loop detection at run time. An investigation ends because the
graph it walks through has no cycle: the nodes it visits are distinct, and only a terminal
node has no choices to offer.

* `progress`: offered choices lead to the end, in fewer decisions than there are nodes.
-/

namespace Interbellum

open InvestigationService

variable {s : Store} {i : Investigation}

theorem Consistent.of_active (h : Consistent s i) (hs : Design s) (hactive : i.status = .inProgress) :
    ∃ e, Leaving s i e := by
  obtain ⟨v, -, hbound, -, -⟩ := h.walk
  obtain ⟨n, hn, hnid, houtcome⟩ := h.stands hs
  have hkind : n.kind = .decision := by
    obtain ⟨r, hr, -, rfl⟩ := mem_nodesOf.mp hn
    rcases hs.node_check r hr with ⟨hk, -⟩ | ⟨hk, -⟩
    · rcases houtcome with ⟨-, hstatus, -⟩ | ⟨hne, -⟩
      · rw [hactive] at hstatus
        cases hstatus
      · exact absurd hk hne
    · exact hk
  rw [← hbound.2.1, ← mem_graphOf_nodes] at hn
  obtain ⟨⟨e, he, hfrom⟩, -⟩ := (hbound.publishable hs).decision n hn hkind
  rw [mem_graphOf_edges, hbound.2.1] at he
  exact ⟨e, hactive, he, hfrom.trans hnid⟩

theorem Consistent.of_completed (h : Consistent s i) (hs : Design s)
    (hcompleted : i.status = .completed) :
    ∃ resolution, i.finalResolution = some resolution ∧ resolution ≠ "" := by
  obtain ⟨v, -, hbound, -, -⟩ := h.walk
  obtain ⟨n, hn, -, houtcome⟩ := h.stands hs
  rw [← hbound.2.1, ← mem_graphOf_nodes] at hn
  rcases houtcome with ⟨hk, -, -, hresolution⟩ | ⟨-, hstatus, -⟩
  · rw [hresolution]
    exact ((hbound.publishable hs).terminal n hn hk).2
  · rw [hcompleted] at hstatus
    cases hstatus

/-- While a choice is left, at least one more node is. -/
theorem Consistent.length_lt_of_active (h : Consistent s i) (hs : Design s)
    (hactive : i.status = .inProgress) :
    (s.stepsOf i.id).length + 1 < (s.nodesOf i.playbookVersionID).length := by
  obtain ⟨e, -, he, hfrom⟩ := h.of_active hs hactive
  obtain ⟨v, root, hbound, hroot, hwalk⟩ := h.walk
  rw [← hbound.2.1] at he
  have hjoins : Joins (s.edgesOf v.id) e.id i.currentNodeID e.toNodeID := ⟨e, he, rfl, hfrom, rfl⟩
  have hlonger := Digraph.Trail.concat_iff.mpr ⟨hwalk, hjoins⟩
  have hsubset : Digraph.visited ((s.stepsOf i.id).map StepRow.taken ++ [(i.currentNodeID, e.id)])
      e.toNodeID ⊆ (s.nodesOf i.playbookVersionID).map Node.id := by
    intro id hid
    rw [Digraph.visited, List.map_append] at hid
    rcases List.mem_append.mp hid with hid | hid
    · exact h.visited_subset hs hid
    · rw [List.mem_singleton.mp hid, ← hbound.2.1]
      exact (hjoins.nodes hs).2
  have hle := (List.subperm_of_subset (hlonger.nodup (hbound.acyclic hs)) hsubset).length_le
  simp only [Digraph.visited, List.length_append, List.length_map, List.length_singleton] at hle
  omega

/-! ## Picking decisions -/

/-- Decisions on investigation `id` picked from the choices that `Get` offers at the moment,
without a key or under a fresh one. Other clients may do anything in between. -/
inductive Picks (id : UUID) (s₀ : Store) : Nat → Store → Prop
  | start : Picks id s₀ 0 s₀
  | meanwhile {k : Nat} {s : Store} {ι : Type} [DecidableEq ι] {ops : ι → Operation}
      {trace : List (ι × Txn.Event)} {sys : Server ι} (h : Picks id s₀ k s)
      (hrun : Txn.Run (clients s ops) trace sys) : Picks id s₀ k sys.store
  | pick {k : Nat} {s : Store} {a : Attempt} {state : State} {e : Edge} (h : Picks id s₀ k s)
      (hid : a.investigationID = id) (hstate : (get id).run.run s = (.ok state, s))
      (hchoice : e ∈ state.availableChoices) (hedge : e.id = a.input.edgeID)
      (hunused : a.KeyUnused s) (hstorable : a.Storable s) :
      Picks id s₀ (k + 1) (a.call.run.run s).2

theorem reachable_attempt (h : Reachable s) (a : Attempt) : Reachable (a.call.run.run s).2 := by
  have hop := h.operation (.decide a)
  rwa [Operation.call, reply, Txn.Call.run_map] at hop

/-- Every pick is accepted, and appends a step. -/
theorem Picks.steps {id : UUID} {s₀ s : Store} {k : Nat} (h : Picks id s₀ k s)
    (hs₀ : Reachable s₀) (hi : ∃ i ∈ s₀.investigations, i.id = id) :
    Reachable s ∧ Evolves s₀ s ∧ (s₀.stepsOf id).length + k ≤ (s.stepsOf id).length := by
  induction h with
  | start => exact ⟨hs₀, Evolves.refl s₀, le_refl _⟩
  | meanwhile _ hrun ih =>
    obtain ⟨hs, hevolves, hle⟩ := ih
    have hnext := hs.evolves hrun
    exact ⟨.run hs hrun, hevolves.trans hnext, hle.trans (hnext.steps id).length_le⟩
  | @pick k s a state e _ hid hstate hchoice hedge hunused hstorable ih =>
    obtain ⟨hs, hevolves, hle⟩ := ih
    obtain ⟨i₀, hi₀, hi₀id⟩ := hi
    obtain ⟨i, hi, hiid, -⟩ := hevolves.investigations i₀ hi₀
    have hiid' : i.id = id := hiid.trans hi₀id
    subst hiid'
    obtain ⟨v, al, n, steps, hshown, hget⟩ := run_get hs.valid hi
    rw [hget] at hstate
    rw [← Except.ok.inj (Prod.mk.inj hstate).1] at hchoice
    have hleaving := (mem_choicesFor hshown.bound.2.1).mp hchoice
    rcases Attempt.run_fresh hs.valid hi hid.symm hunused hstorable with
      ⟨e', next, step, -, -, -, hadvances, hrun⟩ | ⟨hnone, -⟩
    · refine ⟨reachable_attempt hs a, ?_, ?_⟩
      · rw [hrun]
        exact hevolves.trans (hadvances.evolves hs.valid)
      · rw [hrun]
        show _ ≤ ((s.advanced _ next).stepsOf i.id).length
        rw [hadvances.stepsOf_self, List.length_append, List.length_singleton]
        omega
    · exact absurd hleaving (hnone e hedge)

/-- An investigation of a published version never comes back to a node or an edge, offers a
choice as long as it is in progress, and is completed, with a resolution, once as many
choices have been picked as there are nodes besides the root, or earlier. -/
theorem progress (h : Reachable s) {v : Version} (hv : v ∈ s.versions)
    (hp : v.status = .published) (hi : i ∈ s.investigations)
    (hversion : i.playbookVersionID = v.id) :
    ((s.stepsOf i.id).map StepRow.nodeID ++ [i.currentNodeID]).Nodup ∧
    ((s.stepsOf i.id).map StepRow.selectedEdgeID).Nodup ∧
    (s.stepsOf i.id).length ≤ (s.nodesOf v.id).length - 1 ∧
    (i.status = .inProgress → ∃ state, (get i.id).run.run s = (.ok state, s) ∧
      state.availableChoices ≠ []) ∧
    ∀ k s', Picks i.id s k s' → ∃ i' ∈ s'.investigations, i'.id = i.id ∧
      (i'.status = .completed ∧ k ≤ (s.nodesOf v.id).length - 1 ∧
          (∃ resolution, i'.finalResolution = some resolution ∧ resolution ≠ "") ∨
        i'.status = .inProgress ∧ k < (s.nodesOf v.id).length - 1 ∧
          ∃ state, (get i.id).run.run s' = (.ok state, s') ∧ state.availableChoices ≠ []) := by
  have hoffers : ∀ {t : Store} {j : Investigation}, Valid t → j ∈ t.investigations →
      j.status = .inProgress → ∃ state, (get j.id).run.run t = (.ok state, t) ∧
        state.availableChoices ≠ [] := by
    intro t j ht hj hactive
    obtain ⟨w, al, n, steps, hshown, hget⟩ := run_get ht hj
    obtain ⟨e, he⟩ := (ht.consistent j hj).of_active ht.toDesign hactive
    exact ⟨_, hget, List.ne_nil_of_mem ((mem_choicesFor hshown.bound.2.1).mpr he)⟩
  have hs := h.valid
  have hconsistent := hs.consistent i hi
  have hlt := hconsistent.length_lt hs.toDesign
  rw [hversion] at hlt
  refine ⟨visitedBy_eq i ▸ hconsistent.visited_nodup hs.toDesign,
    hconsistent.edges_nodup hs.toDesign, by omega,
    hoffers hs hi, ?_⟩
  intro k s' hpicks
  obtain ⟨hs', hevolves, hle⟩ := hpicks.steps h ⟨i, hi, rfl⟩
  obtain ⟨i', hi', hid, -, hversion', -⟩ := hevolves.investigations i hi
  have hconsistent' := hs'.valid.consistent i' hi'
  have hnodes : s'.nodesOf i'.playbookVersionID = s.nodesOf v.id := by
    rw [hversion', hversion]
    simp only [Store.nodesOf, hevolves.frozen v hv hp]
  refine ⟨i', hi', hid, ?_⟩
  cases hstatus : i'.status with
  | completed =>
    have hlt' := hconsistent'.length_lt hs'.valid.toDesign
    rw [hnodes, hid] at hlt'
    exact .inl ⟨rfl, by omega, hconsistent'.of_completed hs'.valid.toDesign hstatus⟩
  | inProgress =>
    have hlt' := hconsistent'.length_lt_of_active hs'.valid.toDesign hstatus
    rw [hnodes, hid] at hlt'
    refine .inr ⟨rfl, by omega, ?_⟩
    rw [← hid]
    exact hoffers hs'.valid hi' hstatus

/-- The playbook has three nodes, so two picks are enough. -/
theorem progress_triage : (Triage.started.stepsOf 4).length ≤ 2 ∧
    ∀ k s', Picks 4 Triage.started k s' → k ≤ 2 := by
  have hi : ⟨4, 3, 2, .inProgress, 10, 10, none, none⟩ ∈ Triage.started.investigations := by
    decide +kernel
  have hv : ⟨2, 1, 1, .published, some 10, 7, some 8⟩ ∈ Triage.started.versions := by
    decide +kernel
  have hnodes : (Triage.started.nodesOf 2).length = 3 := by decide +kernel
  obtain ⟨-, -, hsteps, -, hpicks⟩ := progress Triage.reachable_started hv rfl hi rfl
  rw [hnodes] at hsteps
  refine ⟨hsteps, ?_⟩
  intro k s' h
  obtain ⟨i', -, -, ⟨-, hle, -⟩ | ⟨-, hlt, -⟩⟩ := hpicks k s' h
  · rw [hnodes] at hle
    exact hle
  · rw [hnodes] at hlt
    omega

end Interbellum
