import Mathlib.Logic.Relation
import Interbellum.Frontend.PlaybookEditor

/-!
# Runs of the playbook editor

Whatever is added, changed and removed in the form, its ids stay distinct and its references
lead to nodes of it.

* `intact_of_edits`: one edit keeps a draft intact, and so does a run of them.
* `intact_run`: an intact draft has none of the problems that a designer could not mend.
-/

namespace Interbellum.Frontend

open Ecma (Value)
open Utf16 (Text)

/-! ## Drafts without dangling references -/

/-- A reference is empty, or the id of a node. -/
def Picked (nodeIds : List Text) (t : Text) : Prop := t = [] ∨ t ∈ nodeIds

structure PlaybookDraft.Intact (d : PlaybookDraft) : Prop where
  node_ids : d.nodeIds.Nodup
  edge_ids : (d.edges.map EdgeDraft.id).Nodup
  root : Picked d.nodeIds d.rootNodeId
  ends : ∀ e ∈ d.edges, Picked d.nodeIds e.fromNodeId ∧ Picked d.nodeIds e.toNodeId

/-- A stored graph has distinct ids and no dangling references. -/
structure PlaybookGraphInput.Coherent (g : PlaybookGraphInput) : Prop where
  node_ids : (g.nodes.map PlaybookNode.id).Nodup
  edge_ids : (g.edges.map PlaybookEdge.id).Nodup
  root : ∀ root ∈ g.rootNodeId, root ∈ g.nodes.map PlaybookNode.id
  ends : ∀ e ∈ g.edges, e.fromNodeId ∈ g.nodes.map PlaybookNode.id ∧
    e.toNodeId ∈ g.nodes.map PlaybookNode.id

/-- New ids are fresh, and the controls for references offer the nodes of the draft. -/
def Edit.Allowed (d : PlaybookDraft) : Edit → Prop
  | .addNode newId _ => newId ∉ d.nodeIds
  | .addEdge newId fromNodeId => newId ∉ d.edges.map EdgeDraft.id ∧ Picked d.nodeIds fromNodeId
  | .updateEdge _ patch => (∀ t ∈ patch.fromNodeId, Picked d.nodeIds t) ∧
      ∀ t ∈ patch.toNodeId, Picked d.nodeIds t
  | .chooseRoot rootNodeId => Picked d.nodeIds rootNodeId
  | .updateNode _ _ | .removeNode _ | .removeEdge _ => True

/-- One edit. -/
def Step (d d' : PlaybookDraft) : Prop := ∃ edit : Edit, edit.Allowed d ∧ edit.apply d = some d'

/-- What the editor starts from. -/
inductive Start (stringify : List (Text × Value) → Text) : PlaybookDraft → Prop
  | empty : Start stringify emptyDraft
  | loaded {g : PlaybookGraphInput} (hg : g.Coherent) :
    Start stringify (draftFromDefinition stringify g)

theorem nodeIds_draftFromDefinition (stringify : List (Text × Value) → Text)
    (g : PlaybookGraphInput) :
    (draftFromDefinition stringify g).nodeIds = g.nodes.map PlaybookNode.id := by
  rw [PlaybookDraft.nodeIds, draftFromDefinition, List.map_map]
  rfl

theorem Start.intact {stringify : List (Text × Value) → Text} {d : PlaybookDraft}
    (h : Start stringify d) : d.Intact := by
  cases h with
  | empty => exact ⟨.nil, .nil, .inl rfl, fun _ he => (List.not_mem_nil he).elim⟩
  | @loaded g hg =>
    have hnodeIds := nodeIds_draftFromDefinition stringify g
    refine ⟨hnodeIds ▸ hg.node_ids, ?_, ?_, ?_⟩
    · rw [draftFromDefinition, List.map_map]
      exact hg.edge_ids
    · rw [hnodeIds]
      show Picked _ (g.rootNodeId.getD [])
      cases hroot : g.rootNodeId with
      | none => exact .inl rfl
      | some root => exact .inr (hg.root root hroot)
    · intro e he
      obtain ⟨edge, hedge, rfl⟩ := List.mem_map.mp he
      rw [hnodeIds]
      exact ⟨.inr (hg.ends edge hedge).1, .inr (hg.ends edge hedge).2⟩

/-! ## One edit -/

section

variable {d : PlaybookDraft}

theorem Picked.mono {nodeIds nodeIds' : List Text} {t : Text} (h : Picked nodeIds t)
    (hsub : nodeIds ⊆ nodeIds') : Picked nodeIds' t :=
  h.imp_right fun ht => hsub ht

theorem map_modify_id {α : Type} {id : α → Text} {f : α → α} (h : ∀ a, id (f a) = id a)
    (index : ℕ) (items : List α) : (items.modify index f).map id = items.map id := by
  induction items generalizing index with
  | nil => rw [List.modify_nil]
  | cons a rest ih =>
    cases index with
    | zero => rw [List.modify_zero_cons, List.map_cons, h, List.map_cons]
    | succ index => rw [List.modify_succ_cons, List.map_cons, ih, List.map_cons]

theorem mem_modify {α : Type} {f : α → α} {index : ℕ} {items : List α} {a : α}
    (h : a ∈ items.modify index f) : ∃ b ∈ items, a = b ∨ a = f b := by
  obtain ⟨i, hi⟩ := List.mem_iff_getElem?.mp h
  rw [List.getElem?_modify, Option.map_eq_map, Option.map_eq_some_iff] at hi
  obtain ⟨b, hb, hab⟩ := hi
  refine ⟨b, List.mem_of_getElem? hb, ?_⟩
  split_ifs at hab
  · exact .inr hab.symm
  · exact .inl hab.symm

theorem Intact.addNode (h : d.Intact) {newId : Text} {kind : PlaybookNodeKind}
    (hnew : newId ∉ d.nodeIds) : (addNode newId kind d).Intact := by
  have hnodeIds : (Frontend.addNode newId kind d).nodeIds = d.nodeIds ++ [newId] := List.map_append
  have hsub : d.nodeIds ⊆ (Frontend.addNode newId kind d).nodeIds := by
    rw [hnodeIds]
    exact List.subset_append_left _ _
  refine ⟨?_, h.edge_ids, ?_, ?_⟩
  · rw [hnodeIds]
    exact List.nodup_append_comm.mp (List.nodup_cons.mpr ⟨hnew, h.node_ids⟩)
  · show Picked _ (if d.rootNodeId = [] ∧ d.nodes.length = 0 then newId else d.rootNodeId)
    split_ifs
    · exact .inr (hnodeIds ▸ List.mem_append_right _ (List.mem_singleton_self newId))
    · exact h.root.mono hsub
  · exact fun e he => ⟨(h.ends e he).1.mono hsub, (h.ends e he).2.mono hsub⟩

theorem Intact.updateNode (h : d.Intact) (index : ℕ) (patch : NodePatch) :
    (updateNode index patch d).Intact := by
  have hnodeIds : (Frontend.updateNode index patch d).nodeIds = d.nodeIds :=
    @map_modify_id _ NodeDraft.id (fun node => node.patched patch) (fun _ => rfl) index d.nodes
  exact ⟨hnodeIds.symm ▸ h.node_ids, h.edge_ids, hnodeIds.symm ▸ h.root, hnodeIds.symm ▸ h.ends⟩

/-- The edges of the node go with it, and so does its place as the root. -/
theorem Intact.removeNode (h : d.Intact) {index : ℕ} {d' : PlaybookDraft}
    (hremove : removeNode index d = some d') : d'.Intact := by
  obtain ⟨removed, hremoved, rfl⟩ := Option.map_eq_some_iff.mp hremove
  have hnodeIds : (d.nodes.eraseIdx index).map NodeDraft.id = d.nodeIds.eraseIdx index :=
    (List.eraseIdx_map ..).symm
  have hid : d.nodeIds[index]? = some removed.id := by
    rw [PlaybookDraft.nodeIds, List.getElem?_map, hremoved]
    rfl
  have hkept : ∀ t, Picked d.nodeIds t → t ≠ removed.id →
      Picked ((d.nodes.eraseIdx index).map NodeDraft.id) t := by
    rintro t (ht | ht) hne
    · exact .inl ht
    · rw [hnodeIds]
      refine .inr (List.mem_eraseIdx_iff_getElem?.mpr ?_)
      obtain ⟨i, hi⟩ := List.mem_iff_getElem?.mp ht
      refine ⟨i, ?_, hi⟩
      rintro rfl
      exact hne (Option.some.inj (hi.symm.trans hid))
  refine ⟨?_, ?_, ?_, ?_⟩
  · show ((d.nodes.eraseIdx index).map NodeDraft.id).Nodup
    rw [hnodeIds]
    exact h.node_ids.sublist (List.eraseIdx_sublist ..)
  · exact h.edge_ids.sublist (List.filter_sublist.map _)
  · show Picked _ (if d.rootNodeId = removed.id then [] else d.rootNodeId)
    split_ifs with hroot
    · exact .inl rfl
    · exact hkept _ h.root hroot
  · intro e he
    obtain ⟨he, hne⟩ := List.mem_filter.mp he
    obtain ⟨hfrom, hto⟩ := of_decide_eq_true hne
    exact ⟨hkept _ (h.ends e he).1 hfrom, hkept _ (h.ends e he).2 hto⟩

theorem Intact.addEdge (h : d.Intact) {newId fromNodeId : Text}
    (hnew : newId ∉ d.edges.map EdgeDraft.id) (hfrom : Picked d.nodeIds fromNodeId) :
    (addEdge newId fromNodeId d).Intact := by
  refine ⟨h.node_ids, ?_, h.root, ?_⟩
  · show ((d.edges ++ [nextEdge newId fromNodeId d.edges]).map EdgeDraft.id).Nodup
    rw [List.map_append]
    exact List.nodup_append_comm.mp (List.nodup_cons.mpr ⟨hnew, h.edge_ids⟩)
  · intro e he
    rcases List.mem_append.mp he with he | he
    · exact h.ends e he
    · obtain rfl := List.mem_singleton.mp he
      exact ⟨hfrom, .inl rfl⟩

theorem ends_updatedEdge (others : List EdgeDraft) (patch : EdgePatch) (edge : EdgeDraft) :
    (updatedEdge others patch edge).fromNodeId = patch.fromNodeId.getD edge.fromNodeId ∧
      (updatedEdge others patch edge).toNodeId = patch.toNodeId.getD edge.toNodeId ∧
        (updatedEdge others patch edge).id = edge.id := by
  unfold updatedEdge
  split
  · split_ifs <;> exact ⟨rfl, rfl, rfl⟩
  · exact ⟨rfl, rfl, rfl⟩

theorem Intact.updateEdge (h : d.Intact) (index : ℕ) {patch : EdgePatch}
    (hfrom : ∀ t ∈ patch.fromNodeId, Picked d.nodeIds t)
    (hto : ∀ t ∈ patch.toNodeId, Picked d.nodeIds t) : (updateEdge index patch d).Intact := by
  have hpicked : ∀ (x : Option Text) (t : Text), (∀ t ∈ x, Picked d.nodeIds t) →
      Picked d.nodeIds t → Picked d.nodeIds (x.getD t) := by
    intro x t hx ht
    cases x with
    | none => exact ht
    | some t' => exact hx t' rfl
  refine ⟨h.node_ids, ?_, h.root, ?_⟩
  · show ((d.edges.modify index _).map EdgeDraft.id).Nodup
    rw [map_modify_id fun edge => (ends_updatedEdge _ patch edge).2.2]
    exact h.edge_ids
  · intro e he
    obtain ⟨edge, hedge, rfl | rfl⟩ := mem_modify he
    · exact h.ends e hedge
    · obtain ⟨hf, ht, -⟩ := ends_updatedEdge (d.edges.eraseIdx index) patch edge
      rw [hf, ht]
      exact ⟨hpicked _ _ hfrom (h.ends edge hedge).1, hpicked _ _ hto (h.ends edge hedge).2⟩

theorem Intact.removeEdge (h : d.Intact) (index : ℕ) : (removeEdge index d).Intact :=
  ⟨h.node_ids, h.edge_ids.sublist ((List.eraseIdx_sublist ..).map _), h.root,
    fun e he => h.ends e (List.mem_of_mem_eraseIdx he)⟩

theorem Intact.step (h : d.Intact) {d' : PlaybookDraft} (hstep : Step d d') : d'.Intact := by
  obtain ⟨edit, hallowed, happly⟩ := hstep
  cases edit with
  | addNode newId kind =>
    obtain rfl := Option.some.inj happly
    exact Intact.addNode h hallowed
  | updateNode index patch =>
    obtain rfl := Option.some.inj happly
    exact Intact.updateNode h index patch
  | removeNode index => exact Intact.removeNode h happly
  | addEdge newId fromNodeId =>
    obtain rfl := Option.some.inj happly
    exact Intact.addEdge h hallowed.1 hallowed.2
  | updateEdge index patch =>
    obtain rfl := Option.some.inj happly
    exact Intact.updateEdge h index hallowed.1 hallowed.2
  | removeEdge index =>
    obtain rfl := Option.some.inj happly
    exact Intact.removeEdge h index
  | chooseRoot rootNodeId =>
    obtain rfl := Option.some.inj happly
    exact ⟨h.node_ids, h.edge_ids, hallowed, h.ends⟩

theorem Intact.run (h : d.Intact) {d' : PlaybookDraft} (hrun : Relation.ReflTransGen Step d d') :
    d'.Intact := by
  induction hrun with
  | refl => exact h
  | tail _ hstep ih => exact Intact.step ih hstep

end

/-! ## What is reported -/

/-- A problem that a designer can mend in the form: it is not about an id or the root, and not
about a node that is gone. -/
def DraftError.Mendable (e : DraftError) : Prop :=
  e.field ≠ .id ∧ e.field ≠ .rootNodeId ∧
    e.message ≠ .ofString "That node is no longer part of this draft."

theorem mem_problem {condition : Prop} [Decidable condition] {e e' : DraftError} :
    e ∈ problem condition e' ↔ condition ∧ e = e' := by
  unfold problem
  split_ifs with h <;> simp [h]

theorem mendable_of {scope : DraftErrorScope} {index : Int} {field : DraftErrorField}
    {message : String} (hid : field ≠ .id) (hroot : field ≠ .rootNodeId)
    (hmessage : message ≠ "That node is no longer part of this draft.") :
    (DraftError.of scope index field message).Mendable := by
  refine ⟨hid, hroot, fun he => hmessage ?_⟩
  have htext := congrArg Text.toUnicode he
  rwa [DraftError.of, Text.toUnicode_ofString, Text.toUnicode_ofString] at htext

theorem mendable_nodeErrors {seen : List Text} {index : ℕ} {node : NodeDraft}
    (hid : node.id ∉ seen) : ∀ e ∈ nodeErrors seen index node, e.Mendable := by
  intro e he
  simp only [nodeErrors, List.mem_append, mem_problem] at he
  rcases he with ((⟨hseen, -⟩ | ⟨-, rfl⟩) | ⟨-, rfl⟩) | he
  · exact absurd hseen hid
  · exact mendable_of (by decide) (by decide) (by decide)
  · exact mendable_of (by decide) (by decide) (by decide)
  · cases hmetadata : parseMetadata node.metadata with
    | ok value =>
      rw [hmetadata] at he
      cases he
    | error message =>
      rw [hmetadata] at he
      obtain rfl := List.mem_singleton.mp he
      refine mendable_of (by decide) (by decide) ?_
      unfold parseMetadata at hmetadata
      split_ifs at hmetadata
      split at hmetadata
      · rw [← Except.error.inj hmetadata]
        decide
      · cases hmetadata
      · rw [← Except.error.inj hmetadata]
        decide

theorem mendable_checkNodes {seen : List Text} {index : ℕ} {nodes : List NodeDraft}
    (hids : (nodes.map NodeDraft.id).Nodup) (hseen : ∀ node ∈ nodes, node.id ∉ seen) :
    ∀ e ∈ checkNodes seen index nodes, e.Mendable := by
  induction nodes generalizing seen index with
  | nil => exact fun _ he => (List.not_mem_nil he).elim
  | cons node rest ih =>
    obtain ⟨hnode, hrest⟩ := List.nodup_cons.mp hids
    obtain ⟨hfirst, hothers⟩ := List.forall_mem_cons.mp hseen
    intro e he
    rcases List.mem_append.mp he with he | he
    · exact mendable_nodeErrors hfirst e he
    · refine ih hrest (fun other hother hmem => ?_) e he
      rcases List.mem_cons.mp hmem with heq | hmem
      · exact hnode (heq ▸ List.mem_map_of_mem hother)
      · exact hothers other hother hmem

theorem mendable_endpointErrors {nodeIds : List Text} {index : ℕ} {field : DraftErrorField}
    {value : Text} (hpicked : Picked nodeIds value) (hid : field ≠ .id) (hroot : field ≠ .rootNodeId) :
    ∀ e ∈ endpointErrors nodeIds index field value, e.Mendable := by
  intro e he
  unfold endpointErrors at he
  split_ifs at he with hempty
  · obtain rfl := List.mem_singleton.mp he
    exact mendable_of hid hroot (by decide)
  · exact absurd (hpicked.resolve_left hempty) (mem_problem.mp he).1

theorem labelMessage_ne (label : Text) :
    labelMessage label ≠ .ofString "That node is no longer part of this draft." := by
  intro h
  have hanother : (Text.ofString "Another choice leaving this node is already labelled “").head? =
      some (Utf16.unit 'A') := by decide +kernel
  have hthat : (Text.ofString "That node is no longer part of this draft.").head? =
      some (Utf16.unit 'T') := by decide +kernel
  have hhead := congrArg List.head? h
  rw [labelMessage, List.append_assoc, List.head?_append, hanother, hthat] at hhead
  cases hhead

theorem mendable_edgeErrors {nodeIds seen : List Text} {labels : List (Text × Text)} {index : ℕ}
    {edge : EdgeDraft} (hid : edge.id ∉ seen) (hfrom : Picked nodeIds edge.fromNodeId)
    (hto : Picked nodeIds edge.toNodeId) :
    ∀ e ∈ edgeErrors nodeIds seen labels index edge, e.Mendable := by
  intro e he
  simp only [edgeErrors, List.mem_append, mem_problem] at he
  rcases he with (((⟨hseen, -⟩ | ⟨-, rfl⟩) | he) | he) | ⟨-, rfl⟩
  · exact absurd hseen hid
  · exact mendable_of (by decide) (by decide) (by decide)
  · exact mendable_endpointErrors hfrom (by decide) (by decide) e he
  · exact mendable_endpointErrors hto (by decide) (by decide) e he
  · exact ⟨by simp, by simp, labelMessage_ne _⟩

theorem mendable_checkEdges {nodeIds seen : List Text} {labels : List (Text × Text)} {index : ℕ}
    {edges : List EdgeDraft} (hids : (edges.map EdgeDraft.id).Nodup)
    (hseen : ∀ edge ∈ edges, edge.id ∉ seen)
    (hends : ∀ edge ∈ edges, Picked nodeIds edge.fromNodeId ∧ Picked nodeIds edge.toNodeId) :
    ∀ e ∈ checkEdges nodeIds seen labels index edges, e.Mendable := by
  induction edges generalizing seen labels index with
  | nil => exact fun _ he => (List.not_mem_nil he).elim
  | cons edge rest ih =>
    obtain ⟨hedge, hrest⟩ := List.nodup_cons.mp hids
    obtain ⟨hfirst, hothers⟩ := List.forall_mem_cons.mp hseen
    obtain ⟨⟨hfrom, hto⟩, hends⟩ := List.forall_mem_cons.mp hends
    intro e he
    rcases List.mem_append.mp he with he | he
    · exact mendable_edgeErrors hfirst hfrom hto e he
    · refine ih hrest (fun other hother hmem => ?_) hends e he
      rcases List.mem_cons.mp hmem with heq | hmem
      · exact hedge (heq ▸ List.mem_map_of_mem hother)
      · exact hothers other hother hmem

theorem PlaybookDraft.Intact.mendable {d : PlaybookDraft} (h : d.Intact) :
    ∀ e ∈ d.errors, e.Mendable := by
  intro e he
  rcases List.mem_append.mp he with he | he
  · rcases List.mem_append.mp he with he | he
    · exact mendable_checkNodes h.node_ids (fun _ _ => List.not_mem_nil) e he
    · exact mendable_checkEdges h.edge_ids (fun _ _ => List.not_mem_nil) h.ends e he
  · obtain ⟨⟨hne, hgone⟩, -⟩ := mem_problem.mp he
    exact absurd (h.root.resolve_left hne) hgone

/-- Whatever is done in the form, it stays intact, and saving it reports no problem that the
designer could not mend. -/
theorem intact_run {stringify : List (Text × Value) → Text} {start d : PlaybookDraft}
    (hstart : Start stringify start) (hrun : Relation.ReflTransGen Step start d) :
    d.Intact ∧ ∀ errors, serializePlaybookDraft d = .error errors → ∀ e ∈ errors, e.Mendable := by
  have hintact : d.Intact := Intact.run hstart.intact hrun
  refine ⟨hintact, ?_⟩
  intro errors herrors
  unfold serializePlaybookDraft at herrors
  split_ifs at herrors
  obtain rfl := Except.error.inj herrors
  exact hintact.mendable

/-- A node is added to an empty form, then a choice that leaves it, and then it is removed. -/
theorem intact_run_single : ∃ d, Relation.ReflTransGen Step emptyDraft d ∧ d.Intact := by
  have hadd : Step emptyDraft (addNode [1] .decision emptyDraft) :=
    ⟨.addNode [1] .decision, List.not_mem_nil, rfl⟩
  have hchoice : Step (addNode [1] .decision emptyDraft)
      (addEdge [2] [1] (addNode [1] .decision emptyDraft)) :=
    ⟨.addEdge [2] [1], ⟨List.not_mem_nil, .inr (List.mem_singleton_self _)⟩, rfl⟩
  have hremove : Step (addEdge [2] [1] (addNode [1] .decision emptyDraft)) emptyDraft :=
    ⟨.removeNode 0, trivial, rfl⟩
  have hrun := ((Relation.ReflTransGen.single hadd).tail hchoice).tail hremove
  exact ⟨_, hrun, (@intact_run (fun _ => []) _ _ .empty hrun).1⟩

end Interbellum.Frontend
