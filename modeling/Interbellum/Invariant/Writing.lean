import Interbellum.Invariant.Batches

/-!
# What writing a graph comes to

The transactions that write a graph, when they run alone.

* `run_clearGraph`: the graph of a draft can always be cleared.
* `run_writeGraph`: when a graph is written, and which kind of error comes back otherwise.
* `run_replaceGraphBody`, `run_createBody`: what this makes of the requests.
-/

namespace Interbellum

open PlaybookRepository
open Txn (applyAll)

/-! ## Writing a graph -/

/-- Everything the schema asks of a graph that is written to version `id`. -/
structure Graph.Accepted (t : Store) (id : UUID) (g : Graph) : Prop where
  nodes : ∀ n ∈ g.nodes, NodeAllowed t id n
  edges : ∀ e ∈ g.edges, EdgeAllowed t id g e
  choices : (g.edges.map Edge.choice).Nodup
  root : ∀ root, g.rootNodeID = some root → ∃ n ∈ g.nodes, n.id = root

/-- The first item of the graph that is refused is one that its row cannot represent. The
sort orders of all edges come before the first edge. -/
inductive Graph.UnstorableFirst (t : Store) (id : UUID) (g : Graph) : Prop
  | node {pre post : List Node} {n : Node} (hsplit : g.nodes = pre ++ n :: post)
      (hpre : ∀ m ∈ pre, NodeAllowed t id m) (hn : storableNode n = false)
  | sortOrder {e : Edge} (hnodes : ∀ n ∈ g.nodes, NodeAllowed t id n) (he : e ∈ g.edges)
      (hrange : int4 e.sortOrder = false)
  | edge {pre post : List Edge} {e : Edge} (hnodes : ∀ n ∈ g.nodes, NodeAllowed t id n)
      (hrange : ∀ e ∈ g.edges, int4 e.sortOrder = true) (hsplit : g.edges = pre ++ e :: post)
      (hpre : ∀ f ∈ pre, EdgeAllowed t id g f) (hchoices : (pre.map Edge.choice).Nodup)
      (he : storableEdge e = false)

/-- An error comes from the driver exactly under the condition, and otherwise is one that the
client is told. -/
def Refused (unstorable : Prop) (e : Err) : Prop :=
  unstorable ∧ e = .other ∨ ¬ unstorable ∧ e.Client

theorem Graph.UnstorableFirst.not_allowed {t : Store} {id : UUID} {g : Graph}
    (h : g.UnstorableFirst t id) (hnodes : ∀ n ∈ g.nodes, NodeAllowed t id n)
    (hedges : ∀ e ∈ g.edges, EdgeAllowed t id g e) : False := by
  rcases h with ⟨hsplit, -, hn⟩ | ⟨-, he, hout⟩ | ⟨-, -, hsplit, -, -, he⟩
  · have hmem := hsplit ▸ List.mem_append_right _ List.mem_cons_self
    exact Bool.false_ne_true (hn.symm.trans (hnodes _ hmem).storable)
  · have hstorable := (hedges _ he).storable
    rw [storableEdge, hout] at hstorable
    exact Bool.false_ne_true hstorable
  · have hmem := hsplit ▸ List.mem_append_right _ List.mem_cons_self
    exact Bool.false_ne_true (he.symm.trans (hedges _ hmem).storable)

def rootWrites (id : UUID) (g : Graph) : List Write :=
  g.rootNodeID.toList.map fun root => .setRoot id (some root)

def graphWrites (id : UUID) (g : Graph) : List Write :=
  g.nodes.map (nodeWrite id) ++ g.edges.map (edgeWrite id) ++ rootWrites id g

theorem edits_graphWrites (id : UUID) (g : Graph) : ∀ w ∈ graphWrites id g, w.Edits id := by
  intro w hw
  simp only [graphWrites, rootWrites, List.mem_append, List.mem_map] at hw
  rcases hw with (⟨n, -, rfl⟩ | ⟨e, -, rfl⟩) | ⟨root, -, rfl⟩ <;> exact rfl

theorem run_setRoot {id : UUID} {s : Store} {ws : List Write}
    (hpresent : (applyAll ws s).versionRows id ≠ []) (root : Option UUID) :
    ((∀ r, root = some r → ∃ n ∈ (applyAll ws s).nodesOf id, n.id = r) →
      (setRoot id root).run.run s ws = (.ok (), ws ++ [.setRoot id root])) ∧
    ((¬ ∀ r, root = some r → ∃ n ∈ (applyAll ws s).nodesOf id, n.id = r) →
      (setRoot id root).run.run s ws =
        (.error (.pg .foreignKeyViolation "fk_playbook_versions_root_node"), ws)) := by
  obtain ⟨v, hrow⟩ : ∃ v, ((applyAll ws s).versionRows id).head? = some v := by
    rw [← Option.isSome_iff_exists, List.isSome_head?]
    simpa using hpresent
  have hiff : (∀ r, root = some r → ∃ n ∈ (applyAll ws s).nodesOf id, n.id = r) ↔
      (root.any fun r => !((applyAll ws s).nodesOf id).any fun n => n.id = r) = false := by
    cases root <;> simp
  rw [hiff, Bool.not_eq_false, setRoot, run_sql]
  simp only [hrow]
  constructor
  · intro hroot
    simp only [Answer.guarded, hroot, List.find?_cons, List.find?_nil, Except.mapError]
  · intro hroot
    simp [Answer.guarded, hroot, Answer.fail, Except.mapError]

theorem run_writeRoot {id : UUID} {s : Store} {ws : List Write} (g : Graph)
    (hpresent : (applyAll ws s).versionRows id ≠ [])
    (hnodes : (applyAll ws s).nodesOf id = g.nodes.map storedNode) :
    ((∀ root, g.rootNodeID = some root → ∃ n ∈ g.nodes, n.id = root) →
      (writeRoot id g.rootNodeID).run.run s ws = (.ok (), ws ++ rootWrites id g)) ∧
    ((¬ ∀ root, g.rootNodeID = some root → ∃ n ∈ g.nodes, n.id = root) →
      (writeRoot id g.rootNodeID).run.run s ws =
        (.error (.pg .foreignKeyViolation "fk_playbook_versions_root_node"), ws)) := by
  cases hroot : g.rootNodeID with
  | none => simp [writeRoot, rootWrites, hroot, ExceptT.run_pure, Txn.Body.pure_eq]
  | some root =>
    have hset := run_setRoot hpresent (some root)
    rw [hnodes] at hset
    simpa [writeRoot, rootWrites, hroot, storedNode] using hset

section

variable {id : UUID} {v : Version} {s : Store} {ws : List Write} {g : Graph}

/-- How writing the nodes ends. -/
theorem run_writeNodes (h : Cleared id v (applyAll ws s)) (hids : (g.nodes.map Node.id).Nodup) :
    (∀ n ∈ g.nodes, NodeAllowed (applyAll ws s) id n) ∧
        (execBatch (g.nodes.map (insertNode id))).run.run s ws =
          (.ok (), ws ++ g.nodes.map (nodeWrite id)) ∨
      (¬ ∀ n ∈ g.nodes, NodeAllowed (applyAll ws s) id n) ∧ ∃ e ws',
        (execBatch (g.nodes.map (insertNode id))).run.run s ws = (.error e, ws') ∧
          Refused (g.UnstorableFirst (applyAll ws s) id) e := by
  have hbefore : ∀ {pre post : List Node} {n : Node}, g.nodes = pre ++ n :: post →
      (Taken (storableNode · = true) (NodeFits id) (nodeWrite id) pre (applyAll ws s) ↔
        ∀ m ∈ pre, NodeAllowed (applyAll ws s) id m) := by
    intro pre post n hsplit
    refine h.taken_nodes (hids.sublist ?_)
    rw [hsplit]
    exact (List.sublist_append_left _ _).map _
  rcases run_execBatch (inserts_insertNode id) g.nodes s ws with
    ⟨htaken, hrun⟩ | ⟨n, e, ws', hstops, hrun, he⟩
  · exact .inl ⟨(h.taken_nodes hids).mp htaken, hrun⟩
  · have hnot : ¬ ∀ n ∈ g.nodes, NodeAllowed (applyAll ws s) id n := fun hall =>
      hstops.not_taken ((h.taken_nodes hids).mpr hall)
    refine .inr ⟨hnot, e, ws', hrun, ?_⟩
    rcases he with ⟨hn, rfl⟩ | ⟨hn, he⟩
    · obtain ⟨pre, post, hsplit, hpre, -⟩ := hstops
      exact .inl ⟨.node hsplit ((hbefore hsplit).mp hpre) (by simpa using hn), rfl⟩
    · refine .inr ⟨?_, he⟩
      rintro (⟨hsplit, hpre, hm⟩ | ⟨hall⟩ | ⟨hall⟩)
      · rename_i pre post m
        have hm' : ¬ storableNode m = true := by simp [hm]
        have hstops' := Stops.of_unstorable hsplit ((hbefore hsplit).mpr hpre) hm'
        rw [hstops.unique hstops'] at hn
        exact hm' hn
      · exact hnot hall
      · exact hnot hall

theorem Cleared.after_nodes (h : Cleared id v (applyAll ws s)) :
    (applyAll (ws ++ g.nodes.map (nodeWrite id)) s).versionRows id ≠ [] ∧
      (applyAll (ws ++ g.nodes.map (nodeWrite id)) s).nodesOf id = g.nodes.map storedNode := by
  rw [Txn.applyAll_append]
  refine ⟨?_, nodesOf_nodeWrites g rfl h.nodes⟩
  rw [applyAll_nodeWrites]
  exact h.present

theorem Cleared.after_edges (h : Cleared id v (applyAll ws s)) :
    (applyAll (ws ++ g.nodes.map (nodeWrite id) ++ g.edges.map (edgeWrite id)) s).versionRows id ≠
        [] ∧
      (applyAll (ws ++ g.nodes.map (nodeWrite id) ++ g.edges.map (edgeWrite id)) s).nodesOf id =
        g.nodes.map storedNode := by
  rw [Txn.applyAll_append, applyAll_edgeWrites]
  exact h.after_nodes

/-- How writing the edges ends, after the nodes. -/
theorem run_writeEdges (h : Cleared id v (applyAll ws s))
    (hnodes : ∀ n ∈ g.nodes, NodeAllowed (applyAll ws s) id n)
    (hids : (g.edges.map Edge.id).Nodup) :
    ((∀ e ∈ g.edges, EdgeAllowed (applyAll ws s) id g e) ∧ (g.edges.map Edge.choice).Nodup) ∧
        (sendEdges id g.edges).run.run s (ws ++ g.nodes.map (nodeWrite id)) =
          (.ok (), ws ++ g.nodes.map (nodeWrite id) ++ g.edges.map (edgeWrite id)) ∨
      (¬ ((∀ e ∈ g.edges, EdgeAllowed (applyAll ws s) id g e) ∧
          (g.edges.map Edge.choice).Nodup)) ∧ ∃ e ws',
        (sendEdges id g.edges).run.run s (ws ++ g.nodes.map (nodeWrite id)) = (.error e, ws') ∧
          Refused (g.UnstorableFirst (applyAll ws s) id) e := by
  have hbefore : ∀ {pre post : List Edge} {e : Edge}, g.edges = pre ++ e :: post →
      (Taken (storableEdge · = true) (EdgeFits id) (edgeWrite id) pre
        (applyAll (ws ++ g.nodes.map (nodeWrite id)) s) ↔
          (∀ f ∈ pre, EdgeAllowed (applyAll ws s) id g f) ∧ (pre.map Edge.choice).Nodup) := by
    intro pre post e hsplit
    rw [Txn.applyAll_append]
    refine h.taken_edges hnodes (hids.sublist ?_)
    rw [hsplit]
    exact (List.sublist_append_left _ _).map _
  have htaken_iff := h.taken_edges hnodes hids
  rw [← Txn.applyAll_append] at htaken_iff
  -- no node is refused any more
  have hnode : ∀ {pre post : List Node} {n : Node}, g.nodes = pre ++ n :: post →
      storableNode n ≠ false := by
    intro pre post n hsplit hn
    have hmem : n ∈ g.nodes := hsplit ▸ List.mem_append_right _ List.mem_cons_self
    exact Bool.false_ne_true (hn.symm.trans (hnodes n hmem).storable)
  by_cases hrange : ∀ e ∈ g.edges, int4 e.sortOrder = true
  · rw [sendEdges, if_pos (by simpa using hrange)]
    rcases run_execBatch (inserts_insertEdge id) g.edges s (ws ++ g.nodes.map (nodeWrite id)) with
      ⟨htaken, hrun⟩ | ⟨e, err, ws', hstops, hrun, herr⟩
    · exact .inl ⟨htaken_iff.mp htaken, hrun⟩
    · refine .inr ⟨fun hall => hstops.not_taken (htaken_iff.mpr hall), err, ws', hrun, ?_⟩
      rcases herr with ⟨he, rfl⟩ | ⟨he, herr⟩
      · obtain ⟨pre, post, hsplit, hpre, -⟩ := hstops
        obtain ⟨hallowed, hchoices⟩ := (hbefore hsplit).mp hpre
        exact .inl ⟨.edge hnodes hrange hsplit hallowed hchoices (by simpa using he), rfl⟩
      · refine .inr ⟨?_, herr⟩
        rintro (⟨hsplit, -, hn⟩ | ⟨-, hmem, hout⟩ | ⟨-, -, hsplit, hpre, hchoices, hf⟩)
        · exact hnode hsplit hn
        · exact Bool.false_ne_true (hout.symm.trans (hrange _ hmem))
        · rename_i pre post f
          have hf' : ¬ storableEdge f = true := by simp [hf]
          have hstops' := Stops.of_unstorable hsplit ((hbefore hsplit).mpr ⟨hpre, hchoices⟩) hf'
          rw [hstops.unique hstops'] at he
          exact hf' he
  · rw [sendEdges, if_neg (by simpa using hrange)]
    push Not at hrange
    obtain ⟨e, he, hout⟩ := hrange
    have hout : int4 e.sortOrder = false := by simpa using hout
    refine .inr ⟨?_, .other, _, rfl, .inl ⟨.sortOrder hnodes he hout, rfl⟩⟩
    rintro ⟨hall, -⟩
    have hstorable := (hall e he).storable
    rw [storableEdge, hout] at hstorable
    exact Bool.false_ne_true hstorable

/-- A graph is written when the schema accepts it. It is refused with an error of the driver
when what is refused first cannot be stored, and by a constraint otherwise. -/
theorem run_writeGraph (h : Cleared id v (applyAll ws s)) (hnodeIDs : (g.nodes.map Node.id).Nodup)
    (hedgeIDs : (g.edges.map Edge.id).Nodup) :
    g.Accepted (applyAll ws s) id ∧
        (writeGraph id g).run.run s ws = (.ok (), ws ++ graphWrites id g) ∨
      ¬ g.Accepted (applyAll ws s) id ∧ ∃ e ws',
        (writeGraph id g).run.run s ws = (.error e, ws') ∧
          Refused (g.UnstorableFirst (applyAll ws s) id) e := by
  rw [writeGraph, Txn.Body.run_bind_except]
  rcases run_writeNodes h hnodeIDs with ⟨hnodes, hrun⟩ | ⟨hnodes, e, ws', hrun, he⟩
  · rw [hrun]
    show _ ∨ _
    simp only [Txn.Body.run_bind_except]
    rcases run_writeEdges h hnodes hedgeIDs with ⟨⟨hedges, hchoices⟩, hrun⟩ |
      ⟨hedges, e, ws', hrun, he⟩
    · rw [hrun]
      obtain ⟨hpresent, hnodesOf⟩ := h.after_edges (g := g)
      obtain ⟨hok, herror⟩ := run_writeRoot g hpresent hnodesOf
      by_cases hroot : ∀ root, g.rootNodeID = some root → ∃ n ∈ g.nodes, n.id = root
      · refine .inl ⟨⟨hnodes, hedges, hchoices, hroot⟩, ?_⟩
        rw [graphWrites, ← List.append_assoc, ← List.append_assoc]
        exact hok hroot
      · refine .inr ⟨fun hall => hroot hall.root, _, _, herror hroot, .inr ⟨?_, by decide⟩⟩
        exact fun hfirst => hfirst.not_allowed hnodes hedges
    · rw [hrun]
      exact .inr ⟨fun hall => hedges ⟨hall.edges, hall.choices⟩, e, ws', rfl, he⟩
  · rw [hrun]
    exact .inr ⟨fun hall => hnodes hall.nodes, e, ws', rfl, he⟩

/-- What is there after the graph was written. -/
theorem Cleared.written (h : Cleared id v (applyAll ws s)) :
    (applyAll (ws ++ graphWrites id g) s).versionRows id = [v.withRoot g.rootNodeID] ∧
      (applyAll (ws ++ graphWrites id g) s).nodesOf id = g.nodes.map storedNode ∧
        (applyAll (ws ++ graphWrites id g) s).edgesOf id = g.edges := by
  have hroot : ∀ u : Store, u.versionRows id = [v] →
      (applyAll (rootWrites id g) u).versionRows id = [v.withRoot g.rootNodeID] := by
    intro u hu
    rw [rootWrites]
    cases hr : g.rootNodeID with
    | none =>
      have hv : v.withRoot none = v := by
        rw [Version.withRoot, ← h.root]
      simpa [hv] using hu
    | some root =>
      show (updateWhere _ _ u.versions).filter _ = _
      rw [filter_updateWhere (f := Version.withRoot (some root)) fun _ => rfl]
      show updateWhere _ _ (u.versionRows id) = _
      have hid : v.id = id := by
        have hmem : v ∈ u.versionRows id := hu ▸ List.mem_singleton_self v
        exact of_decide_eq_true (List.mem_filter.mp hmem).2
      simp [hu, updateWhere, hid]
  have hrest : ∀ u : Store, (applyAll (rootWrites id g) u).nodesOf id = u.nodesOf id ∧
      (applyAll (rootWrites id g) u).edgesOf id = u.edgesOf id := by
    intro u
    rw [rootWrites]
    cases g.rootNodeID <;> exact ⟨rfl, rfl⟩
  rw [graphWrites, ← List.append_assoc, ← List.append_assoc, Txn.applyAll_append,
    (hrest _).1, (hrest _).2]
  refine ⟨hroot _ ?_, h.after_edges.2, ?_⟩
  · rw [Txn.applyAll_append, Txn.applyAll_append, applyAll_edgeWrites, applyAll_nodeWrites]
    exact h.row
  · rw [Txn.applyAll_append, Txn.applyAll_append, applyAll_edgeWrites, applyAll_nodeWrites,
      Store.edgesOf, Store.edgeRows, List.filter_append]
    show ((applyAll ws s).edgeRows id ++ _).map _ = _
    rw [h.edges, List.nil_append, List.filter_eq_self.mpr, List.map_map]
    · exact List.map_id _
    · intro r hr
      obtain ⟨e, -, rfl⟩ := List.mem_map.mp hr
      exact decide_eq_true rfl

/-- Loading gives the row and the graph as the transaction sees them. -/
theorem run_loadDefinition (hrow : ((applyAll ws s).versionRows id).head? = some v) :
    (loadDefinition id).run.run s ws = (.ok ⟨v, (applyAll ws s).graphOf v⟩, ws) := by
  obtain rfl : v.id = id := of_decide_eq_true (List.mem_filter.mp (List.mem_of_mem_head? hrow)).2
  simp only [loadDefinition, loadGraph, selectVersion, selectNodes, selectEdges,
    Txn.Body.run_bind_except, run_sql, hrow, Answer.row, Answer.read, Except.mapError,
    List.append_nil]
  rfl

end

/-! ## Clearing a graph -/

section

variable {id : UUID} {s : Store} {ws : List Write} {ls : Locks}

theorem run_guarded {β : Type} {violations : Store → List (Bool × Err)}
    {answer : Store → Answer β} {onError : Err → Err}
    (h : ∀ v ∈ violations (applyAll ws s), v.1 = false) :
    (sql (fun s => .guarded (violations s) (answer s)) onError).run.run s ws =
      ((answer (applyAll ws s)).result.mapError onError,
        ws ++ (answer (applyAll ws s)).writes) := by
  rw [run_sql, Answer.guarded_of_valid _ h]

def clearWrites (id : UUID) (t : Store) : List Write :=
  [.setRoot id none, .deleteEdges id (t.edgesOf id), .deleteNodes id (t.nodesOf id)]

theorem nodeRows_deleteNodes (id : UUID) (t : Store) :
    (t.write (.deleteNodes id (t.nodesOf id))).nodeRows id = [] := by
  rw [Store.nodeRows, List.filter_eq_nil_iff]
  intro r hr he
  obtain ⟨hr, hkept⟩ := List.mem_filter.mp hr
  have hid : r.versionID = id := of_decide_eq_true he
  have hmem : r.node ∈ t.nodesOf id := mem_nodesOf.mpr ⟨r, hr, hid, rfl⟩
  simp [hid, hmem] at hkept

theorem edgeRows_deleteEdges (id : UUID) (t : Store) :
    (t.write (.deleteEdges id (t.edgesOf id))).edgeRows id = [] := by
  rw [Store.edgeRows, List.filter_eq_nil_iff]
  intro r hr he
  obtain ⟨hr, hkept⟩ := List.mem_filter.mp hr
  have hid : r.versionID = id := of_decide_eq_true he
  have hmem : r.edge ∈ t.edgesOf id := mem_edgesOf.mpr ⟨r, hr, hid, rfl⟩
  simp [hid, hmem] at hkept

/-- No step refers to the edges of a draft. -/
theorem run_deleteEdges (hs : Valid s) (h : Drafting id s ws ls) :
    (deleteEdges id).run.run s ws =
      (.ok (), ws ++ [.deleteEdges id ((applyAll ws s).edgesOf id)]) := by
  refine (run_guarded ?_).trans rfl
  rw [List.forall_mem_singleton, List.any_eq_false]
  intro e _
  rw [any_and_eq_false fun r hr => decide_eq_false ((h.unreferenced_self hs).2 r hr)]
  exact Bool.false_ne_true

theorem run_deleteNodes (hs : Valid s) (h : Drafting id s ws ls)
    (hroot : ∀ v ∈ (applyAll ws s).versionRows id, v.rootNodeID = none)
    (hedges : (applyAll ws s).edgesOf id = []) :
    (deleteNodes id).run.run s ws =
      (.ok (), ws ++ [.deleteNodes id ((applyAll ws s).nodesOf id)]) := by
  obtain ⟨hinvestigations, hsteps⟩ := h.unreferenced_self hs
  refine (run_guarded ?_).trans rfl
  simp only [List.forall_mem_cons, List.any_eq_false, hedges, List.any_nil]
  refine ⟨?_, ?_, ?_, ?_, ?_, fun _ hv => (List.not_mem_nil hv).elim⟩
  · intro n _ hany
    obtain ⟨v, hv, hn⟩ := List.any_eq_true.mp hany
    simp [hroot v hv] at hn
  · exact fun _ _ => Bool.false_ne_true
  · exact fun _ _ => Bool.false_ne_true
  · intro n _
    rw [any_and_eq_false fun i hi => decide_eq_false (hinvestigations i hi)]
    exact Bool.false_ne_true
  · intro n _
    rw [any_and_eq_false fun r hr => decide_eq_false (hsteps r hr)]
    exact Bool.false_ne_true

/-- The graph of a draft can be cleared: nothing refers to it but the version, whose root is
dropped first, and its own edges, which go before the nodes. -/
theorem run_clearGraph (hs : Valid s) (h : Drafting id s ws ls) :
    (clearGraph id).run.run s ws = (.ok (), ws ++ clearWrites id (applyAll ws s)) := by
  have hset := (run_setRoot (List.ne_nil_of_mem (List.mem_of_mem_head? h.row.choose_spec))
    none).1 fun _ hr => nomatch hr
  obtain ⟨ls₁, h₁⟩ : ∃ ls₁, Drafting id s (ws ++ [.setRoot id none]) ls₁ := by
    have hkeeps := (keeps_setRoot h none).run
    rwa [hset] at hkeeps
  have hedges := run_deleteEdges hs h₁
  have hedgesOf : (applyAll (ws ++ [.setRoot id none]) s).edgesOf id =
      (applyAll ws s).edgesOf id := by
    rw [Txn.applyAll_append]
    rfl
  rw [hedgesOf] at hedges
  obtain ⟨ls₂, h₂⟩ : ∃ ls₂, Drafting id s (ws ++ [.setRoot id none] ++
      [.deleteEdges id ((applyAll ws s).edgesOf id)]) ls₂ := by
    have hkeeps := (keeps_deleteEdges hs h₁).run
    rwa [hedges] at hkeeps
  have hnodes := run_deleteNodes hs h₂ ?_ ?_
  · have hnodesOf : (applyAll (ws ++ [.setRoot id none] ++
        [.deleteEdges id ((applyAll ws s).edgesOf id)]) s).nodesOf id =
          (applyAll ws s).nodesOf id := by
      rw [Txn.applyAll_append, Txn.applyAll_append]
      rfl
    rw [hnodesOf] at hnodes
    rw [clearGraph, Txn.Body.run_bind_except, hset]
    show (deleteEdges id >>= fun _ => deleteNodes id).run.run _ _ = _
    rw [Txn.Body.run_bind_except, hedges]
    simpa [clearWrites] using hnodes
  · rw [Txn.applyAll_append, Txn.applyAll_append]
    intro v hv
    obtain ⟨hv, he⟩ := List.mem_filter.mp hv
    rcases mem_updateWhere.mp hv with ⟨-, hne⟩ | ⟨w, -, -, rfl⟩
    · exact absurd (of_decide_eq_true he) (of_decide_eq_false hne)
    · rfl
  · rw [Txn.applyAll_append, Txn.applyAll_append]
    exact congrArg _ (edgeRows_deleteEdges id _)

/-- A draft whose graph was cleared. -/
theorem cleared (hs : Valid s) (h : Drafting id s ws ls) {v : Version}
    (hrow : (applyAll ws s).versionRows id = [v]) :
    Cleared id (v.withRoot none) (applyAll (ws ++ clearWrites id (applyAll ws s)) s) where
  design := by
    have hkeeps := (keeps_clearGraph hs h).run
    rw [run_clearGraph hs h] at hkeeps
    obtain ⟨ls', h'⟩ := hkeeps
    exact h'.design
  row := by
    rw [Txn.applyAll_append]
    show (updateWhere _ _ (applyAll ws s).versions).filter _ = _
    rw [filter_updateWhere (f := Version.withRoot none) fun _ => rfl]
    show updateWhere _ _ ((applyAll ws s).versionRows id) = _
    have hid : v.id = id := by
      have hmem : v ∈ (applyAll ws s).versionRows id := hrow ▸ List.mem_singleton_self v
      exact of_decide_eq_true (List.mem_filter.mp hmem).2
    simp [hrow, updateWhere, hid]
  root := rfl
  nodes := by
    rw [Txn.applyAll_append]
    exact nodeRows_deleteNodes id _
  edges := by
    rw [Txn.applyAll_append]
    exact edgeRows_deleteEdges id _

end

/-! ## Whole bodies -/

section

variable {id : UUID} {s t : Store} {g : Graph}

/-- What other versions hold is all that matters, apart from the graph. -/
theorem NodeAllowed.edited (h : Edited id s t) {n : Node} :
    NodeAllowed t id n ↔ NodeAllowed s id n := by
  have hrows : ∀ r : NodeRow, r.versionID ≠ id → (r ∈ t.nodes ↔ r ∈ s.nodes) := by
    intro r hne
    have hr : ∀ u : Store, r ∈ u.nodeRows r.versionID ↔ r ∈ u.nodes := fun u =>
      List.mem_filter.trans (and_iff_left (decide_eq_true rfl))
    rw [← hr t, ← hr s, (h.rows _ hne).1]
  constructor
  · exact fun hn => ⟨hn.storable, hn.resolution, fun r hr hne => hn.unused r ((hrows r hne).mpr hr) hne⟩
  · exact fun hn => ⟨hn.storable, hn.resolution, fun r hr hne => hn.unused r ((hrows r hne).mp hr) hne⟩

theorem EdgeAllowed.edited (h : Edited id s t) {e : Edge} :
    EdgeAllowed t id g e ↔ EdgeAllowed s id g e := by
  have hrows : ∀ r : EdgeRow, r.versionID ≠ id → (r ∈ t.edges ↔ r ∈ s.edges) := by
    intro r hne
    have hr : ∀ u : Store, r ∈ u.edgeRows r.versionID ↔ r ∈ u.edges := fun u =>
      List.mem_filter.trans (and_iff_left (decide_eq_true rfl))
    rw [← hr t, ← hr s, (h.rows _ hne).2]
  constructor
  · exact fun he => ⟨he.storable, fun r hr hne => he.unused r ((hrows r hne).mpr hr) hne,
      he.fromNode, he.toNode⟩
  · exact fun he => ⟨he.storable, fun r hr hne => he.unused r ((hrows r hne).mp hr) hne,
      he.fromNode, he.toNode⟩

theorem Graph.Accepted.edited (h : Edited id s t) : g.Accepted t id ↔ g.Accepted s id := by
  constructor
  · exact fun hg => ⟨fun n hn => (NodeAllowed.edited h).mp (hg.nodes n hn),
      fun e he => (EdgeAllowed.edited h).mp (hg.edges e he), hg.choices, hg.root⟩
  · exact fun hg => ⟨fun n hn => (NodeAllowed.edited h).mpr (hg.nodes n hn),
      fun e he => (EdgeAllowed.edited h).mpr (hg.edges e he), hg.choices, hg.root⟩

theorem Graph.UnstorableFirst.imp (hnode : ∀ {n}, NodeAllowed s id n → NodeAllowed t id n)
    (hedge : ∀ {e}, EdgeAllowed s id g e → EdgeAllowed t id g e)
    (h : g.UnstorableFirst s id) : g.UnstorableFirst t id := by
  cases h with
  | node hsplit hpre hn => exact .node hsplit (fun m hm => hnode (hpre m hm)) hn
  | sortOrder hnodes he hrange => exact .sortOrder (fun n hn => hnode (hnodes n hn)) he hrange
  | edge hnodes hrange hsplit hpre hchoices he =>
    exact .edge (fun n hn => hnode (hnodes n hn)) hrange hsplit
      (fun f hf => hedge (hpre f hf)) hchoices he

theorem Graph.UnstorableFirst.edited (h : Edited id s t) :
    g.UnstorableFirst t id ↔ g.UnstorableFirst s id :=
  ⟨.imp (NodeAllowed.edited h).mp (EdgeAllowed.edited h).mp,
    .imp (NodeAllowed.edited h).mpr (EdgeAllowed.edited h).mpr⟩

/-- Replacing the graph of a draft, alone. -/
theorem run_replaceGraphBody (hs : Valid s) {v : Version} (hrow : s.versionRows id = [v])
    (hdraft : v.isDraft = true) (hnodeIDs : (g.nodes.map Node.id).Nodup)
    (hedgeIDs : (g.edges.map Edge.id).Nodup) :
    g.Accepted s id ∧ (replaceGraphBody id g).run.run s [] =
        (.ok ⟨v.withRoot g.rootNodeID, ⟨g.rootNodeID, sortNodes (g.nodes.map storedNode),
          sortEdgeRows g.edges⟩⟩, clearWrites id s ++ graphWrites id g) ∨
      ¬ g.Accepted s id ∧ ∃ e ws, (replaceGraphBody id g).run.run s [] = (.error e, ws) ∧
        Refused (g.UnstorableFirst s id) e := by
  have hv : v ∈ s.versionRows id := hrow ▸ List.mem_singleton_self v
  have hid : v.id = id := of_decide_eq_true (List.mem_filter.mp hv).2
  have h : Drafting id s [] [(.version id, .update)] := drafting_of_lock hs hv hdraft
  have hclear : (clearGraph id).run.run s [] = (.ok (), clearWrites id s) := run_clearGraph hs h
  have hcleared : Cleared id (v.withRoot none) (applyAll (clearWrites id s) s) :=
    cleared hs h hrow
  have hedited : Edited id s (applyAll (clearWrites id s) s) := by
    refine edited_applyAll ?_ s
    simp [clearWrites, Write.Edits]
  have hlock : (lockVersion id).run.run s [] = (.ok v, []) := by
    rw [lockVersion, run_sql]
    simp [hrow, Answer.lockRow, Except.mapError]
  rw [replaceGraphBody, Txn.Body.run_bind_except, hlock]
  simp only [hdraft, if_true, Txn.Body.run_bind_except, hclear]
  rcases run_writeGraph hcleared hnodeIDs hedgeIDs with ⟨haccepted, hrun⟩ | ⟨hnot, e, ws, hrun, he⟩
  · obtain ⟨hversion, hnodesOf, hedgesOf⟩ := hcleared.written (g := g)
    refine .inl ⟨(Graph.Accepted.edited hedited).mp haccepted, ?_⟩
    have hload := run_loadDefinition (List.head?_eq_some_iff.mpr ⟨[], hversion⟩)
    rw [Store.graphOf, show (v.withRoot none).withRoot g.rootNodeID = v.withRoot g.rootNodeID
      from rfl, show (v.withRoot g.rootNodeID).id = id from hid, hnodesOf, hedgesOf] at hload
    simp only [hrun, hload]
    rfl
  · refine .inr ⟨fun hall => hnot ((Graph.Accepted.edited hedited).mpr hall), e, ws, ?_, ?_⟩
    · simp only [hrun]
    · rwa [Refused, Graph.UnstorableFirst.edited hedited] at he

/-- What comes before the graph can be stored, and the ids that were drawn are new; or the
former cannot. -/
def NewPlaybook.UnstorableFirst (s : Store) (p id : UUID) (input : NewPlaybook) : Prop :=
  storableHeader input = false ∨ storableHeader input = true ∧ (∀ q ∈ s.playbooks, q.id ≠ p) ∧
    (∀ v ∈ s.versions, v.id ≠ id) ∧ input.graph.UnstorableFirst s id

/-- The first row of a version that is not there yet. -/
theorem cleared_insertVersion (hs : Design t) {v : Version} (hid : ∀ w ∈ t.versions, w.id ≠ v.id)
    (hplaybook : ∃ p ∈ t.playbooks, p.id = v.playbookID)
    (hnumber : v.version = (t.versionNumbers v.playbookID).length + 1)
    (hdraft : v.status = .draft) (hpublished : v.publishedAt = none)
    (hroot : v.rootNodeID = none) : Cleared v.id v (t.write (.insertVersion v)) where
  design := hs.insertVersion hid hplaybook hnumber hdraft hpublished hroot
  row := by
    show (t.versions ++ [v]).filter _ = _
    rw [List.filter_append, List.filter_eq_nil_iff.mpr, List.nil_append]
    · simp
    · exact fun w hw he => hid w hw (of_decide_eq_true he)
  root := hroot
  nodes := by
    refine List.filter_eq_nil_iff.mpr ?_
    intro r hr he
    obtain ⟨w, hw, hwid⟩ := hs.node_version r hr
    exact hid w hw (hwid.trans (of_decide_eq_true he))
  edges := by
    refine List.filter_eq_nil_iff.mpr ?_
    intro r hr he
    obtain ⟨⟨n, hn, -⟩, -⟩ := hs.edge_nodes r hr
    obtain ⟨row, hrow, hversion, -⟩ := mem_nodesOf.mp hn
    obtain ⟨w, hw, hwid⟩ := hs.node_version row hrow
    exact hid w hw (hwid.trans (hversion.trans (of_decide_eq_true he)))

/-- The row of a new playbook, and of its first version. -/
def newRow (p : UUID) (now : Time) (input : NewPlaybook) : Playbook :=
  ⟨p, input.name, input.description, input.alertType, now, now⟩

def firstVersion (id p : UUID) (now : Time) : Version := ⟨id, p, 1, .draft, none, now, none⟩

/-- How the row of a playbook is inserted. -/
theorem run_insertPlaybook (p : UUID) (now : Time) (input : NewPlaybook) :
    ((∀ q ∈ s.playbooks, q.id ≠ p) ∧ storableHeader input = true ∧
      (insertPlaybook p now input).run.run s [] =
        (.ok (newRow p now input), [.insertPlaybook (newRow p now input)])) ∨
    ¬ ((∀ q ∈ s.playbooks, q.id ≠ p) ∧ storableHeader input = true) ∧
      ∃ e, (insertPlaybook p now input).run.run s [] = (.error e, []) ∧
        Refused (storableHeader input = false) e := by
  have hclient : ∀ t : Store, ∀ v ∈ [(t.playbooks.any fun q => q.id = p,
      Err.pg .uniqueViolation "playbooks_pkey")], v.2.Client := by
    simp only [List.forall_mem_singleton]
    exact fun _ => by decide
  by_cases hheader : storableHeader input = true
  · have hfalse : (!storableHeader input) = false := by simp [hheader]
    by_cases hp : ∀ q ∈ s.playbooks, q.id ≠ p
    · exact .inl ⟨hp, hheader, (run_checked hclient).2.2 hfalse (by simpa using hp)⟩
    · obtain ⟨e, he, hrun⟩ : ∃ e, e.Client ∧
          (insertPlaybook p now input).run.run s [] = (.error e, []) :=
        (run_checked hclient).2.1 hfalse (by simpa using hp)
      exact .inr ⟨fun h => hp h.1, e, hrun, .inr ⟨by simp [hheader], he⟩⟩
  · rw [Bool.not_eq_true] at hheader
    refine .inr ⟨?_, .other, (run_checked hclient).1 ?_, .inl ⟨hheader, rfl⟩⟩
    · exact fun h => Bool.false_ne_true (hheader.symm.trans h.2)
    · show (!storableHeader input) = true
      rw [hheader]
      rfl

/-- How the row of a version is inserted. -/
theorem run_insertVersion {ws : List Write} {now : Time} {p : UUID} {number : Nat}
    (hrange : int4 number = true) (hnumber : number ∉ (applyAll ws s).versionNumbers p)
    (hplaybook : ∃ q ∈ (applyAll ws s).playbooks, q.id = p) :
    ((∀ v ∈ (applyAll ws s).versions, v.id ≠ id) →
      (insertVersion id now p number).run.run s ws =
        (.ok ⟨id, p, number, .draft, none, now, none⟩,
          ws ++ [.insertVersion ⟨id, p, number, .draft, none, now, none⟩])) ∧
    ((¬ ∀ v ∈ (applyAll ws s).versions, v.id ≠ id) → ∃ e, e.Client ∧
      (insertVersion id now p number).run.run s ws = (.error e, ws)) := by
  have hfalse : (!int4 number) = false := by simp [hrange]
  have hclient : ∀ t : Store, ∀ v ∈
      [(t.versions.any (fun v => v.id = id), Err.pg .uniqueViolation "playbook_versions_pkey"),
       (decide (number ∈ t.versionNumbers p),
        .pg .uniqueViolation "playbook_versions_playbook_id_version_key"),
       (!t.playbooks.any (fun q => q.id = p),
        .pg .foreignKeyViolation "playbook_versions_playbook_id_fkey")], v.2.Client := by
    intro t v hv
    simp only [List.mem_cons, List.not_mem_nil, or_false] at hv
    rcases hv with rfl | rfl | rfl <;> (dsimp only; decide)
  constructor
  · intro hid
    refine (run_checked hclient).2.2 hfalse ?_
    simp only [List.forall_mem_cons]
    refine ⟨?_, by simpa using hnumber, ?_, fun _ hv => (List.not_mem_nil hv).elim⟩
    · simpa using hid
    · simpa using hplaybook
  · intro hid
    refine (run_checked hclient).2.1 hfalse ?_
    intro hall
    exact hid (by simpa using (List.forall_mem_cons.mp hall).1)

/-- Once the version is there, only its graph can still be refused. -/
theorem NewPlaybook.unstorableFirst_iff {p : UUID} {input : NewPlaybook}
    (hheader : storableHeader input = true) (hp : ∀ q ∈ s.playbooks, q.id ≠ p)
    (hid : ∀ v ∈ s.versions, v.id ≠ id) (hedited : Edited id s t) :
    input.UnstorableFirst s p id ↔ input.graph.UnstorableFirst t id := by
  rw [Graph.UnstorableFirst.edited hedited]
  constructor
  · rintro (hfalse | ⟨-, -, -, hgraph⟩)
    · exact absurd (hfalse.symm.trans hheader) Bool.false_ne_true
    · exact hgraph
  · exact fun hgraph => .inr ⟨hheader, hp, hid, hgraph⟩

/-- Creating a playbook, alone. -/
theorem run_createBody (hs : Valid s) (p : UUID) (now : Time) (input : NewPlaybook)
    (hnodeIDs : (input.graph.nodes.map Node.id).Nodup)
    (hedgeIDs : (input.graph.edges.map Edge.id).Nodup) :
    ¬ input.UnstorableFirst s p id ∧
        (∃ d ws, (createBody p id now input).run.run s [] = (.ok d, ws)) ∨
      ∃ e ws, (createBody p id now input).run.run s [] = (.error e, ws) ∧
        Refused (input.UnstorableFirst s p id) e := by
  rw [createBody, Txn.Body.run_bind_except]
  rcases @run_insertPlaybook s p now input with ⟨hp, hheader, hrun⟩ | ⟨hnot, e, hrun, he⟩
  swap
  · rw [hrun]
    refine .inr ⟨e, [], rfl, ?_⟩
    rcases he with ⟨hfalse, rfl⟩ | ⟨hheader, hpg⟩
    · exact .inl ⟨.inl hfalse, rfl⟩
    · refine .inr ⟨?_, hpg⟩
      rintro (hfalse | ⟨hheader', hp, -⟩)
      · exact hheader hfalse
      · exact hnot ⟨hp, hheader'⟩
  rw [hrun]
  have hnone : s.versionNumbers p = [] := hs.versionNumbers_eq_nil hp
  -- nothing else about the new version can go wrong than its id
  have hversion := @run_insertVersion id s [.insertPlaybook (newRow p now input)] now
    (newRow p now input).id 1 rfl (hnone ▸ List.not_mem_nil)
    ⟨_, List.mem_append_right _ (List.mem_singleton_self _), rfl⟩
  simp only [Txn.Body.run_bind_except]
  by_cases hid : ∀ v ∈ s.versions, v.id ≠ id
  · have hdesign : Design (s.write (.insertPlaybook (newRow p now input))) :=
      hs.toDesign.insertPlaybook hp
    have hcleared : Cleared id (firstVersion id p now) (applyAll
        ([.insertPlaybook (newRow p now input)] ++ [.insertVersion (firstVersion id p now)]) s) :=
      @cleared_insertVersion _ hdesign (firstVersion id p now) hid
        ⟨_, List.mem_append_right _ (List.mem_singleton_self _), rfl⟩
        (congrArg (·.length + 1) hnone).symm rfl rfl rfl
    have hfirst : input.UnstorableFirst s p id ↔ input.graph.UnstorableFirst (applyAll
        ([.insertPlaybook (newRow p now input)] ++ [.insertVersion (firstVersion id p now)]) s)
          id :=
      NewPlaybook.unstorableFirst_iff hheader hp hid
        (edited_applyAll (by simp [Write.Edits]) s)
    rw [hversion.1 hid, hfirst]
    rcases run_writeGraph hcleared hnodeIDs hedgeIDs with ⟨haccepted, hrun⟩ | ⟨-, e, ws, hrun, he⟩
    · have hload := run_loadDefinition
        (List.head?_eq_some_iff.mpr ⟨[], (hcleared.written (g := input.graph)).1⟩)
      refine .inl ⟨fun hfirst => hfirst.not_allowed haccepted.nodes haccepted.edges, ?_⟩
      simp only [firstVersion, newRow] at hrun hload ⊢
      simp only [hrun, hload]
      exact ⟨_, _, rfl⟩
    · refine .inr ⟨e, ws, ?_, he⟩
      simp only [firstVersion, newRow] at hrun ⊢
      rw [hrun]
  · obtain ⟨e, he, hrun⟩ := hversion.2 hid
    rw [hrun]
    refine .inr ⟨e, _, rfl, .inr ⟨?_, he⟩⟩
    rintro (hfalse | ⟨-, -, hnew, -⟩)
    · exact Bool.false_ne_true (hfalse.symm.trans hheader)
    · exact hid hnew

end

end Interbellum
