import Interbellum.Invariant.Editing

/-!
# Writing the graph of a draft

The statements that clear, write and load the graph of a version, inside a transaction that
holds the version's lock. Each keeps to the locking discipline, since what it reads is
protected by that lock or by a lock it takes itself.

* `keeps_clearGraph`, `keeps_writeGraph`: clearing and writing a graph keep `Drafting`.
* `keeps_loadDefinition`: loading it back keeps `Editing`.
-/

namespace Interbellum

open PlaybookRepository
open Txn (applyAll)

variable {id : UUID} {s : Store} {ws : List Write} {ls : Locks}

theorem nodesOf_of_same {s s' : Store} (h : Same (.version id) s s') :
    s'.nodesOf id = s.nodesOf id := by
  simp only [Store.nodesOf, h.2.1]

theorem edgesOf_of_same {s s' : Store} (h : Same (.version id) s s') :
    s'.edgesOf id = s.edgesOf id := by
  simp only [Store.edgesOf, h.2.2]

/-! ## Reading -/

section

variable {mode : Txn.LockMode}

/-- A lock on the version protects what a read of its rows answers. -/
theorem version_steady {s' : Store} {locks : Locks} (hl : (.version id, mode) ∈ ls)
    (hrely : rules.Rely (ls ++ locks) s s') :
    Same (.version id) (applyAll ws s) (applyAll ws s') :=
  same_of_rely _ mode hrely (List.mem_append_left _ hl) ws

theorem keeps_selectVersion (hl : (.version id, mode) ∈ ls) :
    (selectVersion id).run.Keeps rules s (fun v ws' ls' => ws' = ws ∧ ls' = ls ∧
      v ∈ (applyAll ws s).versionRows id) (fun _ => True) ws ls := by
  refine keeps_sql (fun _ _ => trivial) ?_
  intro v hv
  cases hrow : ((applyAll ws s).versionRows id).head? with
  | none => simp [Answer.row, Answer.fail, hrow] at hv
  | some w =>
    obtain rfl : w = v := by simpa [Answer.row, Answer.read, hrow] using hv
    constructor
    · intro s' hrely
      have hsame : Same (.version id) (applyAll ws s) (applyAll ws s') := version_steady hl hrely
      rw [← hsame.1, hrow]
    · exact ⟨by simp [Answer.row, Answer.read], by simp [Answer.row, Answer.read],
        List.mem_of_mem_head? hrow⟩

theorem keeps_selectNodes (hl : (.version id, mode) ∈ ls) :
    (selectNodes id).run.Keeps rules s (fun nodes ws' ls' => ws' = ws ∧ ls' = ls ∧
      nodes = sortNodes ((applyAll ws s).nodesOf id)) (fun _ => True) ws ls := by
  refine keeps_sql (fun _ _ => trivial) ?_
  intro nodes hnodes
  constructor
  · intro s' hrely
    have hsame : Same (.version id) (applyAll ws s) (applyAll ws s') := version_steady hl hrely
    rw [nodesOf_of_same hsame]
  · refine ⟨by simp [Answer.read], by simp [Answer.read], ?_⟩
    simpa [Answer.read, eq_comm] using hnodes

theorem keeps_selectEdges (hl : (.version id, mode) ∈ ls) :
    (selectEdges id).run.Keeps rules s (fun edges ws' ls' => ws' = ws ∧ ls' = ls ∧
      edges = sortEdgeRows ((applyAll ws s).edgesOf id)) (fun _ => True) ws ls := by
  refine keeps_sql (fun _ _ => trivial) ?_
  intro edges hedges
  constructor
  · intro s' hrely
    have hsame : Same (.version id) (applyAll ws s) (applyAll ws s') := version_steady hl hrely
    rw [edgesOf_of_same hsame]
  · refine ⟨by simp [Answer.read], by simp [Answer.read], ?_⟩
    simpa [Answer.read, eq_comm] using hedges

theorem keeps_loadGraph (hl : (.version id, mode) ∈ ls) (root : Option UUID) :
    (loadGraph id root).run.Keeps rules s (fun g ws' ls' => ws' = ws ∧ ls' = ls ∧
      g = ⟨root, sortNodes ((applyAll ws s).nodesOf id),
        sortEdgeRows ((applyAll ws s).edgesOf id)⟩) (fun _ => True) ws ls := by
  refine .bind ((keeps_selectNodes hl).mono ?_ fun _ h => h)
  rintro nodes _ _ ⟨rfl, rfl, rfl⟩
  refine .bind ((keeps_selectEdges hl).mono ?_ fun _ h => h)
  rintro edges _ _ ⟨rfl, rfl, rfl⟩
  exact .pure ⟨rfl, rfl, rfl⟩

/-- What is loaded under a lock on the version is its row and its graph. -/
theorem keeps_loadDefinition (hl : (.version id, mode) ∈ ls) :
    (loadDefinition id).run.Keeps rules s (fun d ws' ls' => ws' = ws ∧ ls' = ls ∧
      ∃ v ∈ (applyAll ws s).versionRows id, d = ⟨v, (applyAll ws s).graphOf v⟩)
      (fun _ => True) ws ls := by
  refine .bind ((keeps_selectVersion hl).mono ?_ fun _ h => h)
  rintro v _ _ ⟨rfl, rfl, hv⟩
  refine .bind ((keeps_loadGraph hl v.rootNodeID).mono ?_ fun _ h => h)
  rintro g _ _ ⟨rfl, rfl, rfl⟩
  refine .pure ⟨rfl, rfl, v, hv, ?_⟩
  have hid : v.id = id := of_decide_eq_true (List.mem_filter.mp hv).2
  simp only [Store.graphOf, hid]

end

/-! ## Writing -/

theorem keeps_insertNode (h : Drafting id s ws ls) (n : Node) :
    (insertNode id n).run.Keeps rules s (fun _ ws ls => Drafting id s ws ls) (fun _ => True)
      ws ls := by
  refine keeps_guarded ?_
  intro b hchecks _
  simp only [List.forall_mem_cons] at hchecks
  obtain ⟨hstorable, hcheck, hid, -, -⟩ := hchecks
  simp only [Bool.not_eq_eq_eq_not, Bool.not_false, Bool.and_eq_true] at hstorable
  obtain ⟨⟨⟨⟨hkind, -⟩, -⟩, htext⟩, -⟩ := hstorable
  constructor
  · intro s' hrely
    have hnode := same_of_rely (.node n.id) .update hrely (by simp) ws
    have hsame : Same (.version id) (applyAll ws s) (applyAll ws s') :=
      version_steady h.lock hrely
    rw [any_of_filter_eq hnode, ← hsame.1]
    exact ⟨rfl, rfl⟩
  · refine h.write rfl ?_ (h.design.insertNode ?_ ?_ h.draft ?_ htext) rfl
    · intro key hkey
      rcases List.mem_cons.mp hkey with rfl | hkey
      · simp [storedNode]
      · rw [List.mem_singleton.mp hkey]
        exact List.mem_append_left _ h.lock
    · simpa [storedNode] using hid
    · exact h.present
    · cases hk : n.kind with
      | decision => simp_all [storedNode]
      | terminal => simp_all [storedNode]
      | unknown raw => simp [hk, NodeKind.valid] at hkind

theorem keeps_insertEdge (h : Drafting id s ws ls) (e : Edge) :
    (insertEdge id e).run.Keeps rules s (fun _ ws ls => Drafting id s ws ls) (fun _ => True)
      ws ls := by
  refine keeps_guarded ?_
  intro b hchecks _
  simp only [List.forall_mem_cons] at hchecks
  obtain ⟨-, hid, hlabel, -, hfrom, hto, -⟩ := hchecks
  constructor
  · intro s' hrely
    have hedge := same_of_rely (.edge e.id) .update hrely (by simp) ws
    have hkey := same_of_rely (.edgeLabel e.fromNodeID e.label) .update hrely (by simp) ws
    have hsame : Same (.version id) (applyAll ws s) (applyAll ws s') :=
      version_steady h.lock hrely
    rw [any_of_filter_eq hedge, any_of_filter_eq hkey, ← hsame.1, nodesOf_of_same hsame]
    exact ⟨rfl, rfl⟩
  · refine h.write rfl ?_ (h.design.insertEdge ?_ ?_ ?_ ?_ h.draft) rfl
    · intro key hkey
      simp only [Write.keys, List.mem_cons, List.not_mem_nil, or_false] at hkey
      rcases hkey with rfl | rfl | rfl
      · simp
      · simp
      · exact List.mem_append_left _ h.lock
    · simpa using hid
    · simpa using hlabel
    · simpa using hfrom
    · simpa using hto

theorem Drafting.row (h : Drafting id s ws ls) :
    ∃ v, ((applyAll ws s).versionRows id).head? = some v := by
  obtain ⟨v, hv, he⟩ := h.present
  cases hrow : ((applyAll ws s).versionRows id).head? with
  | none =>
    rw [List.head?_eq_none_iff] at hrow
    have hmem : v ∈ (applyAll ws s).versionRows id :=
      List.mem_filter.mpr ⟨hv, decide_eq_true he⟩
    simp [hrow] at hmem
  | some w => exact ⟨w, rfl⟩

theorem keeps_setRoot (h : Drafting id s ws ls) (root : Option UUID) :
    (setRoot id root).run.Keeps rules s (fun _ ws ls => Drafting id s ws ls) (fun _ => True)
      ws ls := by
  refine keeps_sql (fun _ _ => trivial) ?_
  intro b hb
  obtain ⟨v, hrow⟩ := h.row
  simp only [hrow] at hb ⊢
  obtain ⟨hchecks, hguard⟩ := Answer.guarded_ok hb
  rw [hguard]
  constructor
  · intro s' hrely
    have hsame : Same (.version id) (applyAll ws s) (applyAll ws s') :=
      version_steady h.lock hrely
    rw [← hsame.1, hrow, nodesOf_of_same hsame]
    exact hguard
  · have hroot : ∀ r, root = some r → ∃ n ∈ (applyAll ws s).nodesOf id, n.id = r := by
      rintro r rfl
      simpa using hchecks
    refine ⟨h.toEditing.write rfl ?_ (h.design.setRoot hroot h.draft), ?_, ?_⟩
    · intro key hkey
      rw [List.mem_singleton.mp hkey]
      exact List.mem_append_left _ h.lock
    · intro w hw he
      rw [Txn.applyAll_append] at hw
      rcases mem_updateWhere.mp hw with ⟨hw, -⟩ | ⟨v, hv, hvid, rfl⟩
      · exact h.draft w hw he
      · exact h.draft v hv he
    · obtain ⟨w, hw, he⟩ := h.present
      rw [Txn.applyAll_append]
      exact ⟨Version.withRoot root w,
        mem_updateWhere.mpr (.inr ⟨w, hw, decide_eq_true he, rfl⟩), he⟩

theorem any_and_eq_false {α : Type} {rows : List α} {p q : α → Bool}
    (h : ∀ r ∈ rows, p r = false) : rows.any (fun r => p r && q r) = false := by
  rw [List.any_eq_false]
  intro r hr
  simp [h r hr]

theorem Editing.unreferenced_self (h : Editing id s ws ls) (hs : Valid s) :
    (∀ i ∈ (applyAll ws s).investigations, i.playbookVersionID ≠ id) ∧
      ∀ r ∈ (applyAll ws s).steps, r.playbookVersionID ≠ id :=
  @Editing.unreferenced _ _ _ _ h s [] (rely_refl hs)

/-- The steps that would keep an edge from being deleted do not exist. -/
theorem keeps_deleteEdges (hs : Valid s) (h : Drafting id s ws ls) :
    (deleteEdges id).run.Keeps rules s (fun _ ws ls => Drafting id s ws ls) (fun _ => True)
      ws ls := by
  refine keeps_guarded ?_
  intro b _ _
  constructor
  · intro s' hrely
    have hsame : Same (.version id) (applyAll ws s) (applyAll ws s') :=
      version_steady h.lock hrely
    have hnone : ∀ t : Store, (∀ r ∈ t.steps, r.playbookVersionID ≠ id) → ∀ e : Edge,
        (t.steps.any fun r => r.playbookVersionID = id && r.selectedEdgeID = e.id) = false :=
      fun t ht e => any_and_eq_false fun r hr => decide_eq_false (ht r hr)
    rw [edgesOf_of_same hsame]
    refine ⟨?_, rfl⟩
    simp only [hnone _ (h.unreferenced hrely).2, hnone _ (h.unreferenced_self hs).2]
  · refine h.write rfl ?_ (h.design.deleteEdges h.draft) rfl
    intro key hkey
    simp only [Write.keys, List.mem_cons, List.mem_flatMap, List.not_mem_nil, or_false] at hkey
    rcases hkey with rfl | ⟨e, he, rfl | rfl⟩
    · exact List.mem_append_left _ h.lock
    · exact List.mem_append_right _ (List.mem_flatMap.mpr ⟨e, he, by simp⟩)
    · exact List.mem_append_right _ (List.mem_flatMap.mpr ⟨e, he, by simp⟩)

theorem keeps_deleteNodes (hs : Valid s) (h : Drafting id s ws ls) :
    (deleteNodes id).run.Keeps rules s (fun _ ws ls => Drafting id s ws ls) (fun _ => True)
      ws ls := by
  refine keeps_guarded ?_
  intro b hchecks _
  simp only [List.forall_mem_cons] at hchecks
  obtain ⟨hroot, hfrom, hto, -, -, -⟩ := hchecks
  constructor
  · intro s' hrely
    have hsame : Same (.version id) (applyAll ws s) (applyAll ws s') :=
      version_steady h.lock hrely
    have hnone : ∀ t : Store, (∀ r ∈ t.steps, r.playbookVersionID ≠ id) → ∀ n : Node,
        (t.steps.any fun r => r.playbookVersionID = id && r.nodeID = n.id) = false :=
      fun t ht n => any_and_eq_false fun r hr => decide_eq_false (ht r hr)
    have hnone' : ∀ t : Store, (∀ i ∈ t.investigations, i.playbookVersionID ≠ id) →
        ∀ n : Node, (t.investigations.any fun i =>
          i.playbookVersionID = id && i.currentNodeID = n.id) = false :=
      fun t ht n => any_and_eq_false fun i hi => decide_eq_false (ht i hi)
    obtain ⟨hinvestigations, hsteps⟩ := h.unreferenced hrely
    obtain ⟨hinvestigations', hsteps'⟩ := h.unreferenced_self hs
    rw [nodesOf_of_same hsame, edgesOf_of_same hsame, ← hsame.1]
    refine ⟨?_, rfl⟩
    simp only [hnone _ hsteps, hnone _ hsteps', hnone' _ hinvestigations,
      hnone' _ hinvestigations']
  · refine h.write rfl ?_ (h.design.deleteNodes ?_ ?_ ?_ h.draft) rfl
    · intro key hkey
      simp only [Write.keys, List.mem_cons, List.mem_map] at hkey
      rcases hkey with rfl | ⟨n, hn, rfl⟩
      · exact List.mem_append_left _ h.lock
      · exact List.mem_append_right _ (List.mem_map.mpr ⟨n, hn, rfl⟩)
    · intro n hn v hv he hr
      have hmem : v ∈ (applyAll ws s).versionRows id :=
        List.mem_filter.mpr ⟨hv, decide_eq_true he⟩
      have hany := List.any_eq_false.mp hroot n hn
      simp only [List.any_eq_true, decide_eq_true_eq, not_exists, not_and] at hany
      exact hany v hmem hr
    · intro n hn e he hid
      have hany := List.any_eq_false.mp hfrom n hn
      simp only [List.any_eq_true, decide_eq_true_eq, not_exists, not_and] at hany
      exact hany e he hid
    · intro n hn e he hid
      have hany := List.any_eq_false.mp hto n hn
      simp only [List.any_eq_true, decide_eq_true_eq, not_exists, not_and] at hany
      exact hany e he hid

theorem keeps_clearGraph (hs : Valid s) (h : Drafting id s ws ls) :
    (clearGraph id).run.Keeps rules s (fun _ ws ls => Drafting id s ws ls) (fun _ => True)
      ws ls := by
  refine .bind ((keeps_setRoot h none).mono ?_ fun _ h => h)
  intro _ ws' ls' h'
  refine .bind ((keeps_deleteEdges hs h').mono ?_ fun _ h => h)
  intro _ ws'' ls'' h''
  exact keeps_deleteNodes hs h''

theorem keeps_execBatch {α : Type} {statement : α → Db Unit}
    (hstatement : ∀ a ws ls, Drafting id s ws ls → (statement a).run.Keeps rules s
      (fun _ ws ls => Drafting id s ws ls) (fun _ => True) ws ls) (h : Drafting id s ws ls)
    (items : List α) :
    (execBatch (items.map statement)).run.Keeps rules s (fun _ ws ls => Drafting id s ws ls)
      (fun _ => True) ws ls := by
  induction items generalizing ws ls with
  | nil => exact .pure h
  | cons a rest ih =>
    refine .bind ((hstatement a ws ls h).mono ?_ fun _ h => h)
    intro _ ws' ls' h'
    exact ih h'

theorem keeps_writeGraph (h : Drafting id s ws ls) (g : Graph) :
    (writeGraph id g).run.Keeps rules s (fun _ ws ls => Drafting id s ws ls) (fun _ => True)
      ws ls := by
  refine .bind ((keeps_execBatch (fun n _ _ h => keeps_insertNode h n) h g.nodes).mono ?_
    fun _ h => h)
  intro _ ws' ls' h'
  refine .bind (.mono ?_ (fun _ h => h) (?_ : (sendEdges id g.edges).run.Keeps rules s
    (fun _ ws ls => Drafting id s ws ls) (fun _ => True) ws' ls'))
  · intro _ ws'' ls'' h''
    cases g.rootNodeID with
    | none => exact .pure h''
    | some root => exact keeps_setRoot h'' (some root)
  · unfold sendEdges
    split
    · exact keeps_execBatch (fun e _ _ h => keeps_insertEdge h e) h' g.edges
    · exact .throw trivial

end Interbellum
