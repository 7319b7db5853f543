import Interbellum.Invariant.Valid

/-!
# Writes to the design tables

Each write to playbooks, versions, nodes and edges keeps `Design`, given what the statement
that does it has checked.
-/

namespace Interbellum

variable {s : Store}

theorem graphOf_congr {s s' : Store} {v : Version} (hnodes : s'.nodeRows v.id = s.nodeRows v.id)
    (hedges : s'.edgeRows v.id = s.edgeRows v.id) : s'.graphOf v = s.graphOf v := by
  simp only [Store.graphOf, Store.nodesOf, Store.edgesOf, hnodes, hedges]

@[simp] theorem mem_graphOf_nodes {v : Version} {n : Node} :
    n ∈ (s.graphOf v).nodes ↔ n ∈ s.nodesOf v.id := List.mem_insertionSort _

@[simp] theorem mem_graphOf_edges {v : Version} {e : Edge} :
    e ∈ (s.graphOf v).edges ↔ e ∈ s.edgesOf v.id := List.mem_insertionSort _

theorem mem_nodesOf {versionID : UUID} {n : Node} :
    n ∈ s.nodesOf versionID ↔ ∃ r ∈ s.nodes, r.versionID = versionID ∧ r.node = n := by
  simp [Store.nodesOf, Store.nodeRows, and_assoc]

theorem mem_edgesOf {versionID : UUID} {e : Edge} :
    e ∈ s.edgesOf versionID ↔ ∃ r ∈ s.edges, r.versionID = versionID ∧ r.edge = e := by
  simp [Store.edgesOf, Store.edgeRows, and_assoc]

theorem Design.nodesOf_nodup (h : Design s) (id : UUID) : ((s.nodesOf id).map Node.id).Nodup := by
  rw [Store.nodesOf, List.map_map]
  exact h.node_ids.sublist (List.filter_sublist.map _)

theorem Design.node_ids_nodup (h : Design s) (v : Version) :
    ((s.graphOf v).nodes.map Node.id).Nodup := by
  have hperm : (s.graphOf v).nodes.Perm (s.nodesOf v.id) := List.perm_insertionSort _ _
  rw [(hperm.map _).nodup_iff]
  exact h.nodesOf_nodup v.id

theorem Design.edge_ids_nodup (h : Design s) (v : Version) :
    ((s.graphOf v).edges.map Edge.id).Nodup := by
  have hperm : (s.graphOf v).edges.Perm (s.edgesOf v.id) := List.perm_insertionSort _ _
  rw [(hperm.map _).nodup_iff, Store.edgesOf, List.map_map]
  exact h.edge_ids.sublist (List.filter_sublist.map _)

/-- The root and the ends of the edges of a version are nodes of it. -/
theorem Design.closed (h : Design s) {v : Version} (hv : v ∈ s.versions) :
    (s.graphOf v).Closed := by
  constructor
  · intro root hroot
    obtain ⟨n, hn, hid⟩ := h.root_node v hv root hroot
    exact ⟨n, mem_graphOf_nodes.mpr hn, hid⟩
  · intro e he
    obtain ⟨r, hr, hversion, rfl⟩ := mem_edgesOf.mp (mem_graphOf_edges.mp he)
    obtain ⟨⟨n, hn, hnid⟩, m, hm, hmid⟩ := h.edge_nodes r hr
    rw [hversion] at hn hm
    exact ⟨⟨n, mem_graphOf_nodes.mpr hn, hnid⟩, m, mem_graphOf_nodes.mpr hm, hmid⟩

/-- A version has one row. -/
theorem Design.versionRows_eq (h : Design s) {v : Version} (hv : v ∈ s.versions) :
    s.versionRows v.id = [v] := by
  have hmem : v ∈ s.versionRows v.id := List.mem_filter.mpr ⟨hv, decide_eq_true rfl⟩
  have hall : ∀ w ∈ s.versionRows v.id, w = v := by
    intro w hw
    obtain ⟨hw, he⟩ := List.mem_filter.mp hw
    exact List.inj_on_of_nodup_map h.version_ids hw hv (of_decide_eq_true he)
  have hnodup : (s.versionRows v.id).Nodup := (List.Nodup.of_map _ h.version_ids).filter _
  rw [List.eq_replicate_of_mem hall] at hnodup hmem ⊢
  have hle := List.nodup_replicate.mp hnodup
  have hpos : (s.versionRows v.id).length ≠ 0 := fun h0 => by simp [h0] at hmem
  rw [show (s.versionRows v.id).length = 1 by omega, List.replicate_one]

/-- No version belongs to a playbook that is not there. -/
theorem Design.versionNumbers_eq_nil (h : Design s) {p : UUID}
    (hp : ∀ q ∈ s.playbooks, q.id ≠ p) : s.versionNumbers p = [] := by
  simp only [Store.versionNumbers, List.map_eq_nil_iff, List.filter_eq_nil_iff, decide_eq_true_eq]
  intro v hv he
  obtain ⟨q, hq, hqid⟩ := h.version_playbook v hv
  exact hp q hq (hqid.trans he)

/-- Rows whose keys are distinct where they have one: a key stands for one row. -/
theorem eq_of_nodup_filterMap {α β : Type} {f : α → Option β} {rows : List α}
    (h : (rows.filterMap f).Nodup) {a b : α} {c : β} (ha : a ∈ rows) (hb : b ∈ rows)
    (hac : f a = some c) (hbc : f b = some c) : a = b := by
  have hsymm : Std.Symm fun x y => ∀ c, f x = some c → f y ≠ some c :=
    ⟨fun _ _ hxy c hy hx => hxy c hx hy⟩
  have hpairwise := (List.pairwise_filterMap.mp h).imp
    (S := fun x y => ∀ c, f x = some c → f y ≠ some c)
    fun hxy c hx hy => hxy c hx c hy rfl
  by_contra hne
  exact hpairwise.forall ha hb hne c hac hbc

theorem nodup_map_append {α β : Type} {f : α → β} {l : List α} {a : α} (h : (l.map f).Nodup)
    (ha : ∀ b ∈ l, f b ≠ f a) : ((l ++ [a]).map f).Nodup := by
  rw [List.map_append, List.map_singleton, List.nodup_append]
  refine ⟨h, List.nodup_singleton _, ?_⟩
  intro x hx y hy
  obtain ⟨b, hb, rfl⟩ := List.mem_map.mp hx
  rw [List.mem_singleton.mp hy]
  exact ha b hb

namespace Design

theorem insertPlaybook (h : Design s) {p : Playbook} (hid : ∀ q ∈ s.playbooks, q.id ≠ p.id) :
    Design (s.write (.insertPlaybook p)) :=
  { h with
    playbook_ids := nodup_map_append h.playbook_ids hid
    version_playbook := by
      intro v hv
      obtain ⟨q, hq, hqid⟩ := h.version_playbook v hv
      exact ⟨q, List.mem_append_left _ hq, hqid⟩ }

theorem insertVersion (h : Design s) {v : Version} (hid : ∀ w ∈ s.versions, w.id ≠ v.id)
    (hplaybook : ∃ p ∈ s.playbooks, p.id = v.playbookID)
    (hnumber : v.version = (s.versionNumbers v.playbookID).length + 1)
    (hdraft : v.status = .draft) (hpublished : v.publishedAt = none)
    (hroot : v.rootNodeID = none) : Design (s.write (.insertVersion v)) :=
  { h with
    version_ids := nodup_map_append h.version_ids hid
    numbered := by
      intro p
      have hold := h.numbered p
      by_cases hp : v.playbookID = p
      · subst hp
        have happend : (s.write (.insertVersion v)).versionNumbers v.playbookID =
            s.versionNumbers v.playbookID ++ [v.version] := by
          simp [Store.versionNumbers, Store.write]
        rw [happend, List.length_append, List.length_singleton, List.range'_concat, ← hold,
          hnumber]
        congr 2
        omega
      · have hsame : (s.write (.insertVersion v)).versionNumbers p = s.versionNumbers p := by
          simp [Store.versionNumbers, Store.write, hp]
        rw [hsame]
        exact hold
    version_playbook := by
      intro w hw
      rcases List.mem_append.mp hw with hw | hw
      · exact h.version_playbook w hw
      · rw [List.mem_singleton.mp hw]
        exact hplaybook
    lifecycle := by
      intro w hw
      rcases List.mem_append.mp hw with hw | hw
      · exact h.lifecycle w hw
      · rw [List.mem_singleton.mp hw]
        exact .inl ⟨hdraft, hpublished⟩
    root_node := by
      intro w hw root hr
      rcases List.mem_append.mp hw with hw | hw
      · exact h.root_node w hw root hr
      · rw [List.mem_singleton.mp hw, hroot] at hr
        cases hr
    node_version := by
      intro r hr
      obtain ⟨w, hw, hwid⟩ := h.node_version r hr
      exact ⟨w, List.mem_append_left _ hw, hwid⟩
    published := by
      intro w hw hp
      rcases List.mem_append.mp hw with hw | hw
      · exact h.published w hw hp
      · rw [List.mem_singleton.mp hw, hdraft] at hp
        cases hp }

/-- Changing rows of one version in place, apart from its keys. -/
theorem updateVersion (h : Design s) {id : UUID} {f : Version → Version}
    (hid : ∀ v, (f v).id = v.id) (hplaybook : ∀ v, (f v).playbookID = v.playbookID)
    (hnumber : ∀ v, (f v).version = v.version)
    (hlifecycle : ∀ v ∈ s.versions, v.id = id → (f v).status = .draft ∧ (f v).publishedAt = none ∨
      (f v).status = .published ∧ (f v).publishedAt ≠ none)
    (hroot : ∀ v ∈ s.versions, v.id = id → ∀ root, (f v).rootNodeID = some root →
      ∃ n ∈ s.nodesOf id, n.id = root)
    (hpublished : ∀ v ∈ s.versions, v.id = id → (f v).status = .published →
      (s.graphOf (f v)).validate = []) :
    Design { s with versions := updateWhere (fun v => v.id = id) f s.versions } := by
  have hmem : ∀ w ∈ updateWhere (fun v => v.id = id) f s.versions,
      (w ∈ s.versions ∧ w.id ≠ id) ∨ ∃ v ∈ s.versions, v.id = id ∧ f v = w := by
    intro w hw
    rcases mem_updateWhere.mp hw with ⟨hw, hne⟩ | ⟨v, hv, he, hf⟩
    · exact .inl ⟨hw, of_decide_eq_false hne⟩
    · exact .inr ⟨v, hv, of_decide_eq_true he, hf⟩
  exact { h with
    version_ids := by
      have hsame := map_updateWhere (p := fun v => v.id = id) hid s.versions
      rw [hsame]
      exact h.version_ids
    numbered := by
      intro p
      have hsame : Store.versionNumbers
          { s with versions := updateWhere (fun v => v.id = id) f s.versions } p =
          s.versionNumbers p := by
        simp only [Store.versionNumbers]
        rw [filter_updateWhere (fun v => by rw [hplaybook v]), map_updateWhere hnumber]
      rw [hsame]
      exact h.numbered p
    version_playbook := by
      intro w hw
      rcases hmem w hw with ⟨hw, -⟩ | ⟨v, hv, -, rfl⟩
      · exact h.version_playbook w hw
      · rw [hplaybook]
        exact h.version_playbook v hv
    lifecycle := by
      intro w hw
      rcases hmem w hw with ⟨hw, -⟩ | ⟨v, hv, he, rfl⟩
      · exact h.lifecycle w hw
      · exact hlifecycle v hv he
    root_node := by
      intro w hw root hr
      rcases hmem w hw with ⟨hw, -⟩ | ⟨v, hv, he, rfl⟩
      · exact h.root_node w hw root hr
      · rw [hid, he]
        exact hroot v hv he root hr
    node_version := by
      intro r hr
      obtain ⟨v, hv, hvid⟩ := h.node_version r hr
      by_cases he : v.id = id
      · exact ⟨f v, mem_updateWhere.mpr (.inr ⟨v, hv, decide_eq_true he, rfl⟩),
          (hid v).trans hvid⟩
      · exact ⟨v, mem_updateWhere.mpr (.inl ⟨hv, decide_eq_false he⟩), hvid⟩
    published := by
      intro w hw hp
      rcases hmem w hw with ⟨hw, -⟩ | ⟨v, hv, he, rfl⟩
      · exact h.published w hw hp
      · exact hpublished v hv he hp }

theorem setRoot (h : Design s) {id : UUID} {root : Option UUID}
    (hroot : ∀ r, root = some r → ∃ n ∈ s.nodesOf id, n.id = r)
    (hdraft : ∀ v ∈ s.versions, v.id = id → v.status = .draft) :
    Design (s.write (.setRoot id root)) := by
  refine h.updateVersion (fun _ => rfl) (fun _ => rfl) (fun _ => rfl) (fun v hv _ => h.lifecycle v hv)
    (fun v _ _ r hr => hroot r hr) ?_
  intro v hv he hp
  have hd : (Version.withRoot root v).status = .draft := hdraft v hv he
  rw [hd] at hp
  cases hp

theorem setPublished (h : Design s) {id : UUID} {now : Time}
    (hvalid : ∀ v ∈ s.versions, v.id = id → (s.graphOf v).validate = []) :
    Design (s.write (.setPublished id now)) := by
  refine h.updateVersion (fun _ => rfl) (fun _ => rfl) (fun _ => rfl)
    (fun v _ _ => .inr ⟨rfl, by simp [Version.published]⟩) ?_ (fun v hv he _ => hvalid v hv he)
  intro v hv he r hr
  rw [← he]
  exact h.root_node v hv r hr

/-- Writes to the graph of a draft leave the published graphs alone. -/
theorem published_write (h : Design s) {id : UUID} {w : Write}
    (hkeys : ∀ v, v ≠ id → LockKey.version v ∉ w.keys)
    (hdraft : ∀ v ∈ s.versions, v.id = id → v.status = .draft) :
    ∀ v ∈ s.versions, v.status = .published → ((s.write w).graphOf v).validate = [] := by
  intro v hv hp
  have hne : v.id ≠ id := by
    intro he
    rw [hdraft v hv he] at hp
    cases hp
  have hsame := same_of_not_mem_keys (hkeys v.id hne) s
  rw [graphOf_congr hsame.2.1.symm hsame.2.2.symm]
  exact h.published v hv hp

theorem insertNode (h : Design s) {id : UUID} {n : Node}
    (hid : ∀ r ∈ s.nodes, r.node.id ≠ n.id) (hversion : ∃ v ∈ s.versions, v.id = id)
    (hdraft : ∀ v ∈ s.versions, v.id = id → v.status = .draft)
    (hcheck : n.kind = .terminal ∧ n.terminalResolution.isSome ∨
      n.kind = .decision ∧ n.terminalResolution = none)
    (htext : storableOption n.terminalResolution = true) :
    Design (s.write (.insertNode ⟨id, n⟩)) := by
  have hmono : ∀ v, ∀ m ∈ s.nodesOf v, m ∈ (s.write (.insertNode ⟨id, n⟩)).nodesOf v := by
    intro v m hm
    obtain ⟨r, hr, hrv⟩ := mem_nodesOf.mp hm
    exact mem_nodesOf.mpr ⟨r, List.mem_append_left _ hr, hrv⟩
  exact { h with
    node_ids := nodup_map_append h.node_ids hid
    root_node := by
      intro v hv root hr
      obtain ⟨m, hm, hmid⟩ := h.root_node v hv root hr
      exact ⟨m, hmono _ m hm, hmid⟩
    node_version := by
      intro r hr
      rcases List.mem_append.mp hr with hr | hr
      · exact h.node_version r hr
      · rw [List.mem_singleton.mp hr]
        exact hversion
    node_check := by
      intro r hr
      rcases List.mem_append.mp hr with hr | hr
      · exact h.node_check r hr
      · rw [List.mem_singleton.mp hr]
        exact hcheck
    node_text := by
      intro r hr
      rcases List.mem_append.mp hr with hr | hr
      · exact h.node_text r hr
      · rw [List.mem_singleton.mp hr]
        exact htext
    edge_nodes := by
      intro r hr
      obtain ⟨⟨m, hm, hmid⟩, m', hm', hmid'⟩ := h.edge_nodes r hr
      exact ⟨⟨m, hmono _ m hm, hmid⟩, m', hmono _ m' hm', hmid'⟩
    published := h.published_write (fun _ hne => by simp [Write.keys, hne]) hdraft }

theorem insertEdge (h : Design s) {id : UUID} {e : Edge}
    (hid : ∀ r ∈ s.edges, r.edge.id ≠ e.id)
    (hlabel : ∀ r ∈ s.edges, ¬(r.edge.fromNodeID = e.fromNodeID ∧ r.edge.label = e.label))
    (hfrom : ∃ n ∈ s.nodesOf id, n.id = e.fromNodeID) (hto : ∃ n ∈ s.nodesOf id, n.id = e.toNodeID)
    (hdraft : ∀ v ∈ s.versions, v.id = id → v.status = .draft) :
    Design (s.write (.insertEdge ⟨id, e⟩)) :=
  { h with
    edge_ids := nodup_map_append h.edge_ids hid
    edge_labels := by
      refine nodup_map_append h.edge_labels ?_
      intro r hr he
      exact hlabel r hr (Prod.mk.inj he)
    edge_nodes := by
      intro r hr
      rcases List.mem_append.mp hr with hr | hr
      · exact h.edge_nodes r hr
      · rw [List.mem_singleton.mp hr]
        exact ⟨hfrom, hto⟩
    published := h.published_write (fun _ hne => by simp [Write.keys, hne]) hdraft }

theorem deleteEdges (h : Design s) {id : UUID} {edges : List Edge}
    (hdraft : ∀ v ∈ s.versions, v.id = id → v.status = .draft) :
    Design (s.write (.deleteEdges id edges)) := by
  have hsub : (s.write (.deleteEdges id edges)).edges.Sublist s.edges := List.filter_sublist
  exact { h with
    edge_ids := h.edge_ids.sublist (hsub.map _)
    edge_labels := h.edge_labels.sublist (hsub.map _)
    edge_nodes := fun r hr => h.edge_nodes r (hsub.subset hr)
    published := h.published_write (fun _ hne => by simp [Write.keys, hne]) hdraft }

theorem deleteNodes (h : Design s) {id : UUID} {nodes : List Node}
    (hroot : ∀ n ∈ nodes, ∀ v ∈ s.versions, v.id = id → v.rootNodeID ≠ some n.id)
    (hfrom : ∀ n ∈ nodes, ∀ e ∈ s.edgesOf id, e.fromNodeID ≠ n.id)
    (hto : ∀ n ∈ nodes, ∀ e ∈ s.edgesOf id, e.toNodeID ≠ n.id)
    (hdraft : ∀ v ∈ s.versions, v.id = id → v.status = .draft) :
    Design (s.write (.deleteNodes id nodes)) := by
  have hsub : (s.write (.deleteNodes id nodes)).nodes.Sublist s.nodes := List.filter_sublist
  -- a node that something refers to is none of the deleted ones
  have hkeep : ∀ v, ∀ n ∈ s.nodesOf v, (v = id → n ∉ nodes) →
      n ∈ (s.write (.deleteNodes id nodes)).nodesOf v := by
    intro v n hn hnot
    obtain ⟨r, hr, hrv, rfl⟩ := mem_nodesOf.mp hn
    refine mem_nodesOf.mpr ⟨r, List.mem_filter.mpr ⟨hr, ?_⟩, hrv, rfl⟩
    by_cases hv : v = id
    · simp [hnot hv]
    · simp [hrv, hv]
  exact { h with
    node_ids := h.node_ids.sublist (hsub.map _)
    root_node := by
      intro v hv root hr
      obtain ⟨n, hn, hnid⟩ := h.root_node v hv root hr
      refine ⟨n, hkeep _ n hn ?_, hnid⟩
      intro he hmem
      exact hroot n hmem v hv he (hr.trans (by rw [hnid]))
    node_version := fun r hr => h.node_version r (hsub.subset hr)
    node_check := fun r hr => h.node_check r (hsub.subset hr)
    node_text := fun r hr => h.node_text r (hsub.subset hr)
    edge_nodes := by
      intro r hr
      obtain ⟨⟨m, hm, hmid⟩, m', hm', hmid'⟩ := h.edge_nodes r hr
      have hedge : r.versionID = id → r.edge ∈ s.edgesOf id :=
        fun he => mem_edgesOf.mpr ⟨r, hr, he, rfl⟩
      refine ⟨⟨m, hkeep _ m hm ?_, hmid⟩, m', hkeep _ m' hm' ?_, hmid'⟩
      · exact fun he hmem => hfrom m hmem _ (hedge he) hmid.symm
      · exact fun he hmem => hto m' hmem _ (hedge he) hmid'.symm
    published := h.published_write (fun _ hne => by simp [Write.keys, hne]) hdraft }

end Design

end Interbellum
