import Mathlib.Data.List.Enum
import Interbellum.Domain.Renaming
import Interbellum.Invariant.Cloning
import Interbellum.Server.Writes

/-!
# Clones

A version that is created from another one gets a copy of its graph under ids of its own.

* `clone_isomorphic`: the copy is the graph under new ids, and can be published exactly when
  the graph can.
* `clone_of_one_state`: the copy is taken of one committed state, whatever other clients do.
-/

namespace Interbellum

open PlaybookRepository

/-! ## The copy -/

section

variable {g : Graph} {fresh : Nat → UUID}

theorem idMap_of_getElem? (hnodes : (g.nodes.map Node.id).Nodup) {k : Nat} {n : Node}
    (hk : g.nodes[k]? = some n) : idMap fresh g.nodes n.id = some (fresh k) := by
  have hmem : (n, k) ∈ g.nodes.zipIdx.reverse := by
    rw [List.mem_reverse, List.mem_zipIdx_iff_getElem?]
    exact hk
  cases hfind : g.nodes.zipIdx.reverse.find? (fun p => p.1.id = n.id) with
  | none => exact absurd (decide_eq_true rfl) (List.find?_eq_none.mp hfind _ hmem)
  | some p =>
    have hid : p.1.id = n.id := by simpa using List.find?_some hfind
    have hp := List.mem_of_find?_eq_some hfind
    rw [List.mem_reverse, List.mem_zipIdx_iff_getElem?] at hp
    -- the ids are distinct, so this is the position of `n`
    have hids : (g.nodes.map Node.id)[p.2]? = (g.nodes.map Node.id)[k]? := by
      rw [List.getElem?_map, List.getElem?_map, hp, hk]
      exact congrArg some hid
    have hlen : p.2 < (g.nodes.map Node.id).length := by
      rw [List.length_map]
      exact (List.getElem?_eq_some_iff.mp hp).1
    rw [idMap, hfind, ← (List.getElem?_inj hlen hnodes).mp hids]
    rfl

/-- The new id of a node. -/
def newID (fresh : Nat → UUID) (g : Graph) (id : UUID) : UUID :=
  (idMap fresh g.nodes id).getD UUID.nil

theorem newID_of_mem (hnodes : (g.nodes.map Node.id).Nodup) {p : Node × Nat}
    (hp : p ∈ g.nodes.zipIdx) : newID fresh g p.1.id = fresh p.2 := by
  rw [newID, idMap_of_getElem? hnodes (List.mem_zipIdx_iff_getElem?.mp hp)]
  rfl

theorem exists_position {id : UUID} (hid : ∃ n ∈ g.nodes, n.id = id) :
    ∃ p ∈ g.nodes.zipIdx, p.1.id = id := by
  obtain ⟨n, hn, rfl⟩ := hid
  obtain ⟨k, hk⟩ := List.mem_iff_getElem?.mp hn
  exact ⟨(n, k), List.mem_zipIdx_iff_getElem?.mpr hk, rfl⟩

theorem clone_node_ids :
    (cloneGraph fresh g).nodes.map Node.id = (List.range g.nodes.length).map fresh := by
  show (g.nodes.zipIdx.map _).map _ = _
  rw [List.map_map, List.range_eq_range', ← List.zipIdx_map_snd 0 g.nodes, List.map_map]
  rfl

/-- The ids of the copy are drawn one after the other. -/
theorem clone_ids : (cloneGraph fresh g).nodes.map Node.id ++ (cloneGraph fresh g).edges.map Edge.id =
    (List.range (g.nodes.length + g.edges.length)).map fresh := by
  have hedges : (cloneGraph fresh g).edges.map Edge.id =
      (List.range g.edges.length).map fun k => fresh (g.nodes.length + k) := by
    show (g.edges.zipIdx.map _).map _ = _
    rw [List.map_map, List.range_eq_range', ← List.zipIdx_map_snd 0 g.edges, List.map_map]
    rfl
  rw [clone_node_ids, hedges, List.range_add, List.map_append, List.map_map]
  rfl

/-- The copy is a renaming when the ids drawn for its nodes are distinct. -/
theorem clone_renames (hnodes : (g.nodes.map Node.id).Nodup) (hclosed : g.Closed)
    (hfresh : ((cloneGraph fresh g).nodes.map Node.id).Nodup) :
    Graph.Renames (newID fresh g) g (cloneGraph fresh g) where
  inj := by
    rw [clone_node_ids] at hfresh
    have hlt : ∀ p ∈ g.nodes.zipIdx, p.2 ∈ List.range g.nodes.length := by
      intro p hp
      have hget := List.mem_zipIdx_iff_getElem?.mp hp
      exact List.mem_range.mpr (List.getElem?_eq_some_iff.mp hget).1
    intro id hid id' hid' heq
    obtain ⟨p, hp, rfl⟩ := exists_position hid
    obtain ⟨p', hp', rfl⟩ := exists_position hid'
    rw [newID_of_mem hnodes hp, newID_of_mem hnodes hp'] at heq
    have hpositions := List.inj_on_of_nodup_map hfresh (hlt p hp) (hlt p' hp') heq
    have hget := List.mem_zipIdx_iff_getElem?.mp hp
    rw [hpositions, List.mem_zipIdx_iff_getElem?.mp hp'] at hget
    rw [Option.some.inj hget]
  root := by
    show g.rootNodeID.bind _ = _
    cases hroot : g.rootNodeID with
    | none => rfl
    | some root =>
      obtain ⟨p, hp, rfl⟩ := exists_position (hclosed.root root hroot)
      rw [Option.map_some, newID_of_mem hnodes hp]
      exact idMap_of_getElem? hnodes (List.mem_zipIdx_iff_getElem?.mp hp)
  nodes := by
    have hcopy : (cloneGraph fresh g).nodes =
        g.nodes.zipIdx.map fun p => { p.1 with id := newID fresh g p.1.id } := by
      refine List.map_congr_left ?_
      intro p hp
      rw [newID_of_mem hnodes hp]
    rw [hcopy]
    conv_rhs => rw [← List.zipIdx_map_fst 0 g.nodes, List.map_map]
    rfl
  edges := by
    have hcopy : List.Forall₂ (Graph.EdgeCopy (newID fresh g)) (g.edges.zipIdx.map Prod.fst)
        (cloneGraph fresh g).edges := by
      rw [List.forall₂_map_left_iff]
      show List.Forall₂ _ _ (g.edges.zipIdx.map _)
      rw [List.forall₂_map_right_iff, List.forall₂_same]
      exact fun p _ => ⟨rfl, rfl, rfl, rfl, rfl⟩
    rwa [List.zipIdx_map_fst] at hcopy

/-- The copy of a graph corresponds to it position by position, under a bijection of the node
ids. Its ids are new, and it can be published exactly when the graph can. -/
theorem clone_isomorphic {used : UUID → Prop} (hnodes : (g.nodes.map Node.id).Nodup)
    (hclosed : g.Closed) (hfresh : Function.Injective fresh) (hnew : ∀ k, ¬ used (fresh k)) :
    (∃ f : UUID → UUID,
      Set.BijOn f {id | ∃ n ∈ g.nodes, n.id = id}
        {id | ∃ n ∈ (cloneGraph fresh g).nodes, n.id = id} ∧
      (cloneGraph fresh g).rootNodeID = g.rootNodeID.map f ∧
      (cloneGraph fresh g).nodes = g.nodes.map (fun n => { n with id := f n.id }) ∧
      List.Forall₂ (Graph.EdgeCopy f) g.edges (cloneGraph fresh g).edges) ∧
    ((cloneGraph fresh g).nodes.map Node.id ++ (cloneGraph fresh g).edges.map Edge.id).Nodup ∧
    (∀ n ∈ (cloneGraph fresh g).nodes, ¬ used n.id) ∧
    (∀ e ∈ (cloneGraph fresh g).edges, ¬ used e.id) ∧
    ((cloneGraph fresh g).validate = [] ↔ g.validate = []) := by
  have hrenames : Graph.Renames (newID fresh g) g (cloneGraph fresh g) := by
    refine clone_renames hnodes hclosed ?_
    rw [clone_node_ids]
    exact List.nodup_range.map hfresh
  have hids : ∀ id ∈ (cloneGraph fresh g).nodes.map Node.id ++
      (cloneGraph fresh g).edges.map Edge.id, ¬ used id := by
    intro id hid
    rw [clone_ids] at hid
    obtain ⟨k, -, rfl⟩ := List.mem_map.mp hid
    exact hnew k
  refine ⟨⟨newID fresh g, ⟨?_, hrenames.inj, ?_⟩, hrenames.root, hrenames.nodes, hrenames.edges⟩,
    ?_, ?_, ?_, ?_⟩
  · rintro _ ⟨n, hn, rfl⟩
    exact ⟨_, hrenames.mem_nodes.mpr ⟨n, hn, rfl⟩, rfl⟩
  · rintro _ ⟨n', hn', rfl⟩
    obtain ⟨n, hn, rfl⟩ := hrenames.mem_nodes.mp hn'
    exact ⟨n.id, ⟨n, hn, rfl⟩, rfl⟩
  · rw [clone_ids]
    exact List.nodup_range.map hfresh
  · exact fun n hn => hids n.id (List.mem_append_left _ (List.mem_map_of_mem hn))
  · exact fun e he => hids e.id (List.mem_append_right _ (List.mem_map_of_mem he))
  · rw [Graph.validate_nil_iff_publishable, Graph.validate_nil_iff_publishable]
    exact hrenames.publishable_iff hclosed

/-- A copy of the published graph under the ids from 100 on. -/
theorem clone_isomorphic_triage :
    (cloneGraph (· + 100) Triage.graph).validate = [] ↔ Triage.graph.validate = [] := by
  have hclosed : Triage.graph.Closed := by
    constructor
    · rintro root ⟨⟩
      decide
    · decide
  have hcopy := @clone_isomorphic Triage.graph (· + 100) (· < 100) (by decide) hclosed
    (fun _ _ => Nat.add_right_cancel) fun k => Nat.not_lt.mpr (Nat.le_add_left 100 k)
  exact hcopy.2.2.2.2

end

/-! ## The transaction -/

/-- No node and no edge of the version has the id of one of another version. -/
def Store.Apart (s : Store) (v : UUID) : Prop :=
  (∀ r ∈ s.nodes, r.versionID ≠ v → ∀ n ∈ s.nodesOf v, r.node.id ≠ n.id) ∧
    ∀ r ∈ s.edges, r.versionID ≠ v → ∀ e ∈ s.edgesOf v, r.edge.id ≠ e.id

theorem Design.apart {s : Store} (h : Design s) (v : UUID) : s.Apart v := by
  constructor
  · intro r hr hne n hn he
    obtain ⟨r', hr', hversion, rfl⟩ := mem_nodesOf.mp hn
    have hsame : r = r' := List.inj_on_of_nodup_map h.node_ids hr hr' he
    exact hne (hsame ▸ hversion)
  · intro r hr hne e he' he
    obtain ⟨r', hr', hversion, rfl⟩ := mem_edgesOf.mp he'
    have hsame : r = r' := List.inj_on_of_nodup_map h.edge_ids hr hr' he
    exact hne (hsame ▸ hversion)

/-- From the first state to the second one, version `v` was created in playbook `p` as a draft.
Its graph is the one that version `src` of this playbook has in the first state, under new
ids, and nothing else was changed. -/
structure Cloned (p src v : UUID) (s t : Store) : Prop where
  unused : ∀ w ∈ s.versions, w.id ≠ v
  copy : ∃ source ∈ s.versions, source.id = src ∧ source.playbookID = p ∧
    ∃ row, t.versionRows v = [row] ∧ row.playbookID = p ∧ row.isDraft = true ∧
      ∃ f, Graph.Renames f (s.graphOf source) ⟨row.rootNodeID, t.nodesOf v, t.edgesOf v⟩
  apart : t.Apart v
  edited : Edited v s t

theorem cloned_of_writes {s : Store} (hs : Reachable s) {p src v : UUID} {fresh : Nat → UUID}
    {now : Time} {source : Version} (hmem : source ∈ s.versions) (hid : source.id = src)
    (hplaybook : source.playbookID = p) (hnew : ∀ w ∈ s.versions, w.id ≠ v)
    (howned : ∃ q ∈ s.playbooks, q.id = p)
    (hdesign : Design (Txn.applyAll ([.insertVersion (nextRow v p now s)] ++
      graphWrites v (cloneGraph fresh (s.graphOf source))) s)) :
    Cloned p src v s (Txn.applyAll ([.insertVersion (nextRow v p now s)] ++
      graphWrites v (cloneGraph fresh (s.graphOf source))) s) := by
  have hcleared := cleared_nextRow hs.valid.toDesign hnew howned now
  obtain ⟨hrow, hnodes, hedges⟩ := hcleared.written (g := cloneGraph fresh (s.graphOf source))
  refine ⟨hnew, ⟨source, hmem, hid, hplaybook, _, hrow, rfl, rfl, newID fresh (s.graphOf source),
    ?_⟩, hdesign.apart v, edited_applyAll ?_ s⟩
  · -- what is stored already is stored as it is
    have hstored : (cloneGraph fresh (s.graphOf source)).nodes.map storedNode =
        (cloneGraph fresh (s.graphOf source)).nodes := by
      refine (List.map_congr_left ?_).trans (List.map_id _)
      intro n hn
      obtain ⟨⟨m, k⟩, hm, rfl⟩ := List.mem_map.mp hn
      have hnode := (List.mem_zipIdx_iff_getElem?.mp hm)
      obtain ⟨r, hr, -, rfl⟩ := mem_nodesOf.mp
        (mem_graphOf_nodes.mp (List.mem_of_getElem? hnode))
      have hmetadata := congrArg Node.metadata (hs.stored r hr)
      show Node.mk _ _ _ _ _ _ = _
      exact congrArg _ hmetadata
    rw [hstored] at hnodes
    rw [hnodes, hedges]
    refine clone_renames (hs.valid.toDesign.node_ids_nodup source)
      (hs.valid.toDesign.closed hmem) ?_
    rw [← hnodes]
    exact hdesign.nodesOf_nodup v
  · intro w hw
    rcases List.mem_append.mp hw with hw | hw
    · rw [List.mem_singleton.mp hw]
      trivial
    · exact edits_graphWrites v _ w hw

/-- A version is created from another one in one piece, or not at all. -/
theorem run_createVersion {s : Store} (hs : Reachable s) (p src v : UUID) (fresh : Nat → UUID)
    (now : Time) :
    (∃ e, (Operation.createVersion p (some src) v fresh now).call.run s = (.error e, s)) ∨
      ∃ d t, (Operation.createVersion p (some src) v fresh now).call.run s =
        (.ok (.definition d), t) ∧ Cloned p src v s t := by
  have hreachable := hs.operation (.createVersion p (some src) v fresh now)
  have hcall : (Operation.createVersion p (some src) v fresh now).call.run s =
      (((createVersion p (some src) v fresh now).run.run s).1.map .definition,
        ((createVersion p (some src) v fresh now).run.run s).2) := run_reply _ _ s
  rw [hcall] at hreachable ⊢
  rw [createVersion, run_inTx] at hreachable ⊢
  rcases hbody : (createVersionBody p (some src) v fresh now).run.run s [] with ⟨e | d, ws⟩
  · exact .inl ⟨translate e, rfl⟩
  · rw [hbody] at hreachable
    obtain ⟨source, hmem, hid, hplaybook, hnew, howned, rfl⟩ :=
      ok_createVersionBody hs.valid.toDesign hbody
    exact .inr ⟨d, _, rfl, cloned_of_writes hs hmem hid hplaybook hnew howned
      hreachable.valid.toDesign⟩

/-- What is left, and what is answered, when a version is created in one piece. -/
theorem cloned_of_call {s t : Store} (hs : Reachable s) {p src v : UUID} {fresh : Nat → UUID}
    {now : Time} {r : Except AppError Reply}
    (hcall : (Operation.createVersion p (some src) v fresh now).call.run s = (r, t)) :
    (∃ e, r = .error e) ∧ t = s ∨ Cloned p src v s t := by
  rcases run_createVersion hs p src v fresh now with ⟨e, he⟩ | ⟨d, u, hd, hcloned⟩
  · obtain ⟨rfl, rfl⟩ := Prod.mk.inj (hcall.symm.trans he)
    exact .inl ⟨⟨e, rfl⟩, rfl⟩
  · obtain ⟨-, rfl⟩ := Prod.mk.inj (hcall.symm.trans hd)
    exact .inr hcloned

/-- A source keeps its playbook, so the copy and the source are versions of one playbook also
later. -/
theorem Cloned.source_playbook {ι : Type} [DecidableEq ι] {s : Store} (h : Reachable s)
    {ops : ι → Operation} {trace : List (ι × Txn.Event)} {sys before after : Server ι} {k : ι}
    {event : Txn.Event} (hat : Txn.Around k event (clients s ops) trace sys before after)
    {p src v : UUID} (hcloned : Cloned p src v before.store after.store) {source : Version}
    (hsource : source ∈ sys.store.versions) (hid : source.id = src) : source.playbookID = p := by
  obtain ⟨_, _, -, hbefore, hstep, hrest⟩ := hat
  obtain ⟨source', hsource', hid', hplaybook, -⟩ := hcloned.copy
  obtain ⟨calls, hmid⟩ := h.tracked hbefore
  have hafter := (Txn.Run.single hstep).append hrest
  have hevolves : Evolves before.store sys.store := (hmid.run hafter).2
  obtain ⟨row, hrow, hrowID, hrowPlaybook, -⟩ := hevolves.versions source' hsource'
  have hsame : row = source :=
    List.inj_on_of_nodup_map (h.run (hbefore.append hafter)).valid.version_ids hrow hsource
      (hrowID.trans (hid'.trans hid.symm))
  rw [← hsame, hrowPlaybook]
  exact hplaybook

/-- The version that the operation writes to. -/
def Operation.edits : Operation → Option UUID
  | .replaceGraph v _ | .submitGraph v _ | .publish v _ => some v
  | _ => none

theorem edits_keeps {op : Operation} {id : UUID} (hop : op.edits = some id) (s : Store) :
    op.call.Keeps rules (Edited id) (fun _ _ => True) s := by
  have hreplace : ∀ g, (replaceGraph id g).run.Keeps rules (Edited id) (fun _ _ => True) s := by
    intro g
    have hbody : ∀ t, Valid t → (replaceGraphBody id g).run.Keeps rules t (fun _ ws ls =>
        Editing id t ws ls ∧ Edited id t (Txn.applyAll ws t)) (fun _ => True) [] [] := fun t ht =>
      (keeps_replaceGraphBody ht g).mono (fun _ _ _ h => ⟨h, edited_applyAll h.edits t⟩)
        fun _ h => h
    exact keeps_of_editing hbody s
  cases op with
  | replaceGraph v g =>
    obtain rfl := Option.some.inj hop
    exact keeps_reply (hreplace g) fun _ _ _ => trivial
  | submitGraph v g =>
    obtain rfl := Option.some.inj hop
    exact keeps_reply (keeps_checked_request (hreplace g)) fun _ _ _ => trivial
  | publish v now =>
    obtain rfl := Option.some.inj hop
    have hbody : ∀ t, Valid t → (publishBody v now).run.Keeps rules t (fun _ ws ls =>
        Editing v t ws ls ∧ Edited v t (Txn.applyAll ws t)) (fun _ => True) [] [] := fun t ht =>
      (keeps_publishBody ht now).mono (fun _ _ _ h => ⟨h.1, edited_applyAll h.1.edits t⟩)
        fun _ h => h
    exact keeps_reply (keeps_of_editing hbody s) fun _ _ _ => trivial
  | _ => cases hop

/-- A client creates a version of playbook `p` from version `src`, among any others. Each of its
steps leaves the committed state as it is or copies the graph that `src` has in this state,
and if the client is told of success, there was such a step. The ids of the copy stay apart
from those of all other versions, and who edits one version changes neither the row nor the
graph of another. If `src` belongs to another playbook, nothing is created. -/
theorem clone_of_one_state {ι : Type} [DecidableEq ι] {s : Store} (h : Reachable s)
    {ops : ι → Operation} {trace : List (ι × Txn.Event)} {sys : Server ι}
    (hrun : Txn.Run (clients s ops) trace sys) {k : ι} {p src v : UUID} {fresh : Nat → UUID}
    {now : Time} (hop : ops k = .createVersion p (some src) v fresh now) :
    (∀ event before after, Txn.Around k event (clients s ops) trace sys before after →
      after.store = before.store ∨ Cloned p src v before.store after.store) ∧
    (∀ reply, sys.session k = .idle (.ret (.ok reply)) → ∃ event before after,
      Txn.Around k event (clients s ops) trace sys before after ∧
        Cloned p src v before.store after.store) ∧
    sys.store.Apart v ∧
    (∀ j event before after id, Txn.Around j event (clients s ops) trace sys before after →
      (ops j).edits = some id → ∀ w ∈ before.store.versions, w.id ≠ id →
        w ∈ after.store.versions ∧ after.store.graphOf w = before.store.graphOf w) ∧
    ((∃ source ∈ sys.store.versions, source.id = src ∧ source.playbookID ≠ p) →
      (∀ event before after, Txn.Around k event (clients s ops) trace sys before after →
        after.store = before.store) ∧
      ∀ reply, sys.session k ≠ .idle (.ret (.ok reply))) := by
  have htracked := tracked_clients h.valid ops
  have hsingle : (ops k).call.Single := by
    rw [hop]
    exact single_inTx _ _
  have hsteps : ∀ event before after, Txn.Around k event (clients s ops) trace sys before
      after → after.store = before.store ∨ Cloned p src v before.store after.store := by
    intro event before after hat
    rcases htracked.single_step hsingle hat with hsame | ⟨r, hcall⟩
    · exact .inl hsame
    · obtain ⟨_, _, -, hbefore, -, -⟩ := hat
      rw [hop] at hcall
      exact (cloned_of_call (h.run hbefore) hcall).imp_left And.right
  have hanswer : ∀ reply, sys.session k = .idle (.ret (.ok reply)) → ∃ event before after,
      Txn.Around k event (clients s ops) trace sys before after ∧
        Cloned p src v before.store after.store := by
    intro reply hreply
    rcases htracked.single_answer hsingle hrun hreply with hret | ⟨event, before, after, hat, hcall⟩
    · rw [hop] at hret
      cases hret
    · refine ⟨event, before, after, hat, ?_⟩
      obtain ⟨_, _, -, hbefore, -, -⟩ := hat
      rw [hop] at hcall
      rcases cloned_of_call (h.run hbefore) hcall with ⟨⟨e, he⟩, -⟩ | hcloned
      · cases he
      · exact hcloned
  have hforeign : (∃ source ∈ sys.store.versions, source.id = src ∧ source.playbookID ≠ p) →
      ∀ event before after, Txn.Around k event (clients s ops) trace sys before after →
        ¬ Cloned p src v before.store after.store := by
    rintro ⟨source, hsource, hid, hne⟩ event before after hat hcloned
    exact hne (hcloned.source_playbook h hat hsource hid)
  refine ⟨hsteps, hanswer, (h.run hrun).valid.toDesign.apart v, ?_, ?_⟩
  · rintro j event before after id ⟨_, _, -, hbefore, hstep, -⟩ hedits w hw hne
    rcases htracked.guarantee (edits_keeps hedits s) hbefore hstep with hsame | hedited
    · rw [hsame]
      exact ⟨hw, rfl⟩
    · obtain ⟨hnodes, hedges⟩ := hedited.rows w.id hne
      exact ⟨hedited.others w hw hne, graphOf_congr hnodes hedges⟩
  · intro hsource
    constructor
    · intro event before after hat
      exact (hsteps event before after hat).resolve_right (hforeign hsource event before after hat)
    · intro reply hreply
      obtain ⟨event, before, after, hat, hcloned⟩ := hanswer reply hreply
      exact hforeign hsource event before after hat hcloned

/-- A client that copies the draft, and one that replaces its graph. -/
def Triage.copiesAndReplaces : Bool → Operation
  | false => .createVersion 1 (some 2) 30 (· + 40) 9
  | true => .replaceGraph 2 Triage.replacement

/-- The replacement begins first, finds the draft locked when the copy has read its row, and waits:
the copy has all three nodes, and the draft has the new one in the end. -/
theorem clone_of_one_state_triage : ∃ sys before after : Server Bool,
    Cloned 1 2 30 before.store after.store ∧ sys.store.Apart 30 ∧
      (sys.store.nodesOf 30).length = 3 ∧ (sys.store.nodesOf 2).map Node.id = [13] := by
  obtain ⟨trace, sys, hrun, hcopied, hcopy, hreplaced⟩ : ∃ trace sys,
      Txn.Run (clients Triage.drafted Triage.copiesAndReplaces) trace sys ∧
      ((sys.session false).answer?.bind Except.toOption).isSome = true ∧
      (sys.store.nodesOf 30).length = 3 ∧ (sys.store.nodesOf 2).map Node.id = [13] :=
    ⟨_, _, Txn.run_follow ([true] ++ List.replicate 3 false ++ [true] ++ List.replicate 30 false ++
      List.replicate 12 true) _, by decide +kernel, by decide +kernel, by decide +kernel⟩
  obtain ⟨reply, hreply⟩ := Option.isSome_iff_exists.mp hcopied
  obtain ⟨r, hanswer, hr⟩ := Option.bind_eq_some_iff.mp hreply
  obtain rfl : r = .ok reply := by
    cases r with
    | error e => cases hr
    | ok x => exact congrArg _ (Option.some.inj hr)
  obtain ⟨-, hcloned, hapart, -⟩ :=
    clone_of_one_state Triage.reachable_drafted hrun (k := false) rfl
  obtain ⟨-, before, after, -, hcloned⟩ := hcloned reply (Txn.Session.eq_of_answer? hanswer)
  exact ⟨sys, before, after, hcloned, hapart, hcopy, hreplaced⟩

end Interbellum
