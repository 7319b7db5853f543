import Mathlib.Data.Prod.Lex
import Interbellum.Guarantees.TornReads
import Interbellum.Invariant.Writing
import Interbellum.Server.Failures

/-!
# Writing drafts

The graph of a draft is replaced, or given when a playbook is created. Both requests are one
transaction, so each takes effect in one committed state or not at all.

* `replaceGraph_iff`: when a graph replaces the one of a draft, and what is there afterwards.
* `draft_write_codes`: when a client is to blame for the error it gets.
-/

namespace Interbellum

open PlaybookRepository
open Txn (applyAll applyAll_nil)

/-! ## What the service checks -/

/-- Each item has passed the check when its turn came. -/
theorem validateAll_forall {α : Type} {id : α → UUID}
    {check : List UUID → Nat → α → Except AppError Unit} {seen : List UUID} {i : Nat}
    {items : List α} (h : PlaybookService.validateAll id check seen i items = .ok ()) :
    ∀ a ∈ items, ∃ seen i, check seen i a = .ok () := by
  induction items generalizing seen i with
  | nil => exact fun _ ha => (List.not_mem_nil ha).elim
  | cons a rest ih =>
    rw [PlaybookService.validateAll] at h
    cases ha : check seen i a with
    | error e => simp [ha, bind, Except.bind] at h
    | ok =>
      have hrest := ih (by simpa [ha, bind, Except.bind] using h)
      exact List.forall_mem_cons.mpr ⟨⟨seen, i, ha⟩, hrest⟩

theorem validateAll_nodup {α : Type} {id : α → UUID}
    {check : List UUID → Nat → α → Except AppError Unit}
    (hcheck : ∀ seen i a, check seen i a = .ok () → id a ∉ seen) {seen : List UUID} {i : Nat}
    {items : List α} (h : PlaybookService.validateAll id check seen i items = .ok ()) :
    (items.map id).Nodup ∧ ∀ a ∈ items, id a ∉ seen := by
  induction items generalizing seen i with
  | nil => exact ⟨.nil, fun _ ha => (List.not_mem_nil ha).elim⟩
  | cons a rest ih =>
    rw [PlaybookService.validateAll] at h
    cases ha : check seen i a with
    | error e => simp [ha, bind, Except.bind] at h
    | ok =>
      obtain ⟨hnodup, hseen⟩ := ih (by simpa [ha, bind, Except.bind] using h)
      refine ⟨List.nodup_cons.mpr ⟨?_, hnodup⟩, ?_⟩
      · intro hmem
        obtain ⟨b, hb, hba⟩ := List.mem_map.mp hmem
        exact hseen b hb (hba ▸ List.mem_cons_self)
      · refine List.forall_mem_cons.mpr ⟨hcheck _ _ _ ha, ?_⟩
        exact fun b hb hmem => hseen b hb (List.mem_cons_of_mem _ hmem)

/-- A graph that passes has passed for its nodes and for its edges. -/
theorem validateGraphInput_ok {g : Graph} (h : PlaybookService.validateGraphInput g = .ok ()) :
    PlaybookService.validateAll Node.id PlaybookService.validateNode [] 0 g.nodes = .ok () ∧
      PlaybookService.validateAll Edge.id PlaybookService.validateEdge [] 0 g.edges = .ok () := by
  rw [PlaybookService.validateGraphInput] at h
  cases hnodes : PlaybookService.validateAll Node.id PlaybookService.validateNode [] 0 g.nodes with
  | error e => simp [hnodes, bind, Except.bind] at h
  | ok => exact ⟨rfl, by simpa [hnodes, bind, Except.bind] using h⟩

/-- The ids of a graph that passes are distinct. -/
theorem nodup_of_validateGraphInput {g : Graph}
    (h : PlaybookService.validateGraphInput g = .ok ()) :
    (g.nodes.map Node.id).Nodup ∧ (g.edges.map Edge.id).Nodup := by
  obtain ⟨hnodes, hedges⟩ := validateGraphInput_ok h
  refine ⟨(validateAll_nodup ?_ hnodes).1, (validateAll_nodup ?_ hedges).1⟩
  · intro seen i n hn hmem
    unfold PlaybookService.validateNode at hn
    split at hn
    · cases hn
    · cases hn
  · intro seen i e he hmem
    unfold PlaybookService.validateEdge at he
    split at he
    · cases he
    · cases he

theorem kind_valid_of_validateGraphInput {g : Graph}
    (h : PlaybookService.validateGraphInput g = .ok ()) : ∀ n ∈ g.nodes, n.kind.valid = true := by
  intro n hn
  obtain ⟨seen, i, hcheck⟩ := validateAll_forall (validateGraphInput_ok h).1 n hn
  unfold PlaybookService.validateNode at hcheck
  split at hcheck
  · cases hcheck
  split at hcheck
  · cases hcheck
  cases hk : n.kind with
  | unknown raw =>
    rw [hk] at hcheck
    cases hcheck
  | _ => rfl

/-! ## What is read back -/

def Node.sortKey (n : Node) : String ×ₗ UUID := toLex (n.title, n.id)

def Edge.sortKey (e : Edge) : Int ×ₗ String ×ₗ UUID := toLex (e.sortOrder, toLex (e.label, e.id))

theorem nodeOrder_iff (a b : Node) : nodeOrder a b = true ↔ a.sortKey ≤ b.sortKey := by
  simp [nodeOrder, Node.sortKey, Prod.Lex.toLex_le_toLex]

theorem edgeOrder_iff (a b : Edge) : edgeOrder a b = true ↔ a.sortKey ≤ b.sortKey := by
  simp [edgeOrder, Edge.sortKey, Prod.Lex.toLex_le_toLex]

/-- The definition holds a graph as the queries of a version return it: nodes by title and
id, edges by sort order, label and id, and metadata as it is stored. -/
structure ReadsBack (g : Graph) (d : Definition) : Prop where
  root : d.graph.rootNodeID = g.rootNodeID
  nodes : d.graph.nodes.Perm (g.nodes.map storedNode)
  nodes_sorted : d.graph.nodes.Pairwise fun a b => a.sortKey ≤ b.sortKey
  edges : d.graph.edges.Perm g.edges
  edges_sorted : d.graph.edges.Pairwise fun a b => a.sortKey ≤ b.sortKey

theorem pairwise_insertionSort_of {α β : Type} [LinearOrder β] {r : α → α → Bool} {key : α → β}
    (hr : ∀ a b, r a b = true ↔ key a ≤ key b) (l : List α) :
    (l.insertionSort fun a b => r a b).Pairwise fun a b => key a ≤ key b := by
  have htotal : Std.Total fun a b => r a b = true :=
    ⟨fun a b => (le_total (key a) (key b)).imp (hr a b).mpr (hr b a).mpr⟩
  have htrans : IsTrans α fun a b => r a b = true :=
    ⟨fun a b c hab hbc => (hr a c).mpr (((hr a b).mp hab).trans ((hr b c).mp hbc))⟩
  exact (List.pairwise_insertionSort _ l).imp (hr _ _).mp

theorem readsBack_sorted (v : Version) (g : Graph) :
    ReadsBack g ⟨v, ⟨g.rootNodeID, sortNodes (g.nodes.map storedNode), sortEdgeRows g.edges⟩⟩ where
  root := rfl
  nodes := List.perm_insertionSort _ _
  nodes_sorted := pairwise_insertionSort_of nodeOrder_iff _
  edges := List.perm_insertionSort _ _
  edges_sorted := pairwise_insertionSort_of edgeOrder_iff _

/-- A read of a version by the server alone. -/
theorem run_getVersion {t : Store} {id : UUID} {v : Version}
    (hrow : (t.versionRows id).head? = some v) :
    (Operation.getVersion id).call.run t = (.ok (.definition ⟨v, v.rootNodeID,
      sortNodes (t.nodesOf id), sortEdgeRows (t.edgesOf id)⟩), t) := by
  obtain ⟨row, heffect, hcall⟩ := getVersion_call id
  rw [hcall, Txn.Call.run, heffect, hrow]
  rfl

/-! ## Replacing the graph of a draft -/

/-- All texts of the graph can be stored, and the sort orders fit their column. -/
structure Graph.Storable (g : Graph) : Prop where
  nodes : ∀ n ∈ g.nodes, storableText n.title = true ∧ storableText n.description = true ∧
    storableOption n.terminalResolution = true ∧ storableJson n.metadata = true
  edges : ∀ e ∈ g.edges, storableText e.label = true ∧ storableOption e.description = true
  sortOrders : ∀ e ∈ g.edges, -2147483648 ≤ e.sortOrder ∧ e.sortOrder ≤ 2147483647

/-- The graph can be the one of version `id`, next to those of other versions. -/
structure Graph.FitsInto (s : Store) (id : UUID) (g : Graph) : Prop where
  ends : ∀ e ∈ g.edges, (∃ n ∈ g.nodes, n.id = e.fromNodeID) ∧ ∃ n ∈ g.nodes, n.id = e.toNodeID
  root : ∀ root, g.rootNodeID = some root → ∃ n ∈ g.nodes, n.id = root
  resolution : ∀ n ∈ g.nodes, n.kind = .terminal ↔ n.terminalResolution.isSome
  choices : (g.edges.map fun e => (e.fromNodeID, e.label)).Nodup
  node_ids : ∀ r ∈ s.nodes, r.versionID ≠ id → ∀ n ∈ g.nodes, r.node.id ≠ n.id
  edge_ids : ∀ r ∈ s.edges, r.versionID ≠ id → ∀ e ∈ g.edges, r.edge.id ≠ e.id

theorem Graph.Storable.accepted_iff {s : Store} {id : UUID} {g : Graph} (h : g.Storable)
    (hkind : ∀ n ∈ g.nodes, n.kind.valid = true) : g.Accepted s id ↔ g.FitsInto s id := by
  constructor
  · intro hg
    exact ⟨fun e he => ⟨(hg.edges e he).fromNode, (hg.edges e he).toNode⟩, hg.root,
      fun n hn => (hg.nodes n hn).resolution, hg.choices,
      fun r hr hne n hn => (hg.nodes n hn).unused r hr hne,
      fun r hr hne e he => (hg.edges e he).unused r hr hne⟩
  · intro hg
    refine ⟨?_, ?_, hg.choices, hg.root⟩
    · intro n hn
      refine ⟨?_, hg.resolution n hn, fun r hr hne => hg.node_ids r hr hne n hn⟩
      simp [storableNode, hkind n hn, h.nodes n hn]
    · intro e he
      refine ⟨?_, fun r hr hne => hg.edge_ids r hr hne e he, (hg.ends e he).1, (hg.ends e he).2⟩
      simp [storableEdge, int4, h.edges e he, h.sortOrders e he]

/-- The state after the graph of the draft was replaced. -/
def replaced (id : UUID) (g : Graph) (s : Store) : Store :=
  applyAll (clearWrites id s ++ graphWrites id g) s

theorem run_replaceGraph {s : Store} {v : Version} {g : Graph} (hs : Valid s)
    (hv : v ∈ s.versions) (hdraft : v.isDraft = true)
    (hinput : PlaybookService.validateGraphInput g = .ok ()) :
    g.Accepted s v.id ∧ (∃ d, (Operation.replaceGraph v.id g).call.run s =
        (.ok (.definition d), replaced v.id g s)) ∨
      ¬ g.Accepted s v.id ∧ ∃ e, (Operation.replaceGraph v.id g).call.run s =
        (.error (translate e), s) ∧ Refused (g.UnstorableFirst s v.id) e := by
  obtain ⟨hnodeIDs, hedgeIDs⟩ := nodup_of_validateGraphInput hinput
  have hcall : (Operation.replaceGraph v.id g).call.run s =
      (((replaceGraph v.id g).run.run s).1.map .definition, ((replaceGraph v.id g).run.run s).2) :=
    run_reply _ _ s
  rw [hcall, replaceGraph, run_inTx]
  rcases run_replaceGraphBody hs (hs.toDesign.versionRows_eq hv) hdraft hnodeIDs hedgeIDs with
    ⟨hok, hrun⟩ | ⟨hnot, e, ws, hrun, he⟩
  · simp only [hrun]
    exact .inl ⟨hok, _, rfl⟩
  · simp only [hrun]
    exact .inr ⟨hnot, e, rfl, he⟩

/-- A `PUT` that fails a check of the service is answered at once. -/
theorem submitGraph_error {id : UUID} {g : Graph} {e : AppError}
    (hcheck : PlaybookService.validateGraphInput g = .error e) :
    (Operation.submitGraph id g).call = .ret (.error e) := by
  rw [Operation.call, PlaybookService.replaceGraph, hcheck]
  rfl

theorem submitGraph_ok {id : UUID} {g : Graph}
    (hcheck : PlaybookService.validateGraphInput g = .ok ()) :
    (Operation.submitGraph id g).call = (Operation.replaceGraph id g).call := by
  show reply .definition (PlaybookService.replaceGraph id g) = _
  rw [PlaybookService.replaceGraph, hcheck]
  rfl

/-- After the replacement, the draft has the new graph. -/
theorem rows_replaced {s : Store} {v : Version} {g : Graph} (hs : Valid s) (hv : v ∈ s.versions)
    (hdraft : v.isDraft = true) :
    (replaced v.id g s).versionRows v.id = [v.withRoot g.rootNodeID] ∧
      (replaced v.id g s).nodesOf v.id = g.nodes.map storedNode ∧
        (replaced v.id g s).edgesOf v.id = g.edges := by
  have hrow := hs.toDesign.versionRows_eq hv
  have h : Drafting v.id s [] [(.version v.id, .update)] :=
    drafting_of_lock hs (hrow ▸ List.mem_singleton_self v) hdraft
  exact (cleared hs h (v := v) hrow).written

/-- After the replacement, other versions have their rows. -/
theorem same_replaced {s : Store} {id id' : UUID} (g : Graph) (hne : id' ≠ id) :
    Same (.version id') s (replaced id g s) := by
  refine same_of_not_mem_all ?_ s
  intro w hw
  rcases List.mem_append.mp hw with hw | hw
  · simp only [clearWrites, List.mem_cons, List.not_mem_nil, or_false] at hw
    rcases hw with rfl | rfl | rfl <;> simp [Write.keys, hne]
  · simp only [graphWrites, rootWrites, List.mem_append, List.mem_map] at hw
    rcases hw with (⟨n, -, rfl⟩ | ⟨e, -, rfl⟩) | ⟨root, -, rfl⟩ <;>
      simp [nodeWrite, edgeWrite, Write.keys, hne]

/-- The draft of a reachable state takes exactly the graphs that fit. It then has the new one,
and all other versions have theirs; a graph that does not fit changes nothing. -/
theorem replaceGraph_iff {s : Store} (h : Reachable s) {v : Version} (hv : v ∈ s.versions)
    (hdraft : v.isDraft = true) {g : Graph}
    (hinput : PlaybookService.validateGraphInput g = .ok ()) (hstorable : g.Storable) :
    ((∃ reply, ((Operation.replaceGraph v.id g).call.run s).1 = .ok reply) ↔
      g.FitsInto s v.id) ∧
    (∀ reply t, (Operation.replaceGraph v.id g).call.run s = (.ok reply, t) →
      (∃ d, (Operation.getVersion v.id).call.run t = (.ok (.definition d), t) ∧
        d.version = v.withRoot g.rootNodeID ∧ ReadsBack g d) ∧
      (∀ id, id ≠ v.id → t.versionRows id = s.versionRows id ∧ t.nodeRows id = s.nodeRows id ∧
        t.edgeRows id = s.edgeRows id)) ∧
    (∀ e t, (Operation.replaceGraph v.id g).call.run s = (.error e, t) → t = s) := by
  have haccepted : g.Accepted s v.id ↔ g.FitsInto s v.id :=
    hstorable.accepted_iff (kind_valid_of_validateGraphInput hinput)
  rcases run_replaceGraph h.valid hv hdraft hinput with ⟨hok, d, hrun⟩ | ⟨hnot, e, hrun, -⟩
  · rw [hrun]
    refine ⟨⟨fun _ => haccepted.mp hok, fun _ => ⟨_, rfl⟩⟩, ?_, fun e t ht => nomatch ht⟩
    rintro _ _ ⟨⟩
    obtain ⟨hversion, hnodesOf, hedgesOf⟩ := rows_replaced (g := g) h.valid hv hdraft
    refine ⟨⟨_, run_getVersion (List.head?_eq_some_iff.mpr ⟨[], hversion⟩), rfl, ?_⟩, ?_⟩
    · rw [hnodesOf, hedgesOf]
      exact readsBack_sorted _ g
    · intro id hne
      obtain ⟨hversions, hnodes, hedges⟩ := same_replaced (s := s) g hne
      exact ⟨hversions.symm, hnodes.symm, hedges.symm⟩
  · rw [hrun]
    refine ⟨⟨?_, fun hfits => absurd (haccepted.mpr hfits) hnot⟩, fun _ _ ht => (nomatch ht), ?_⟩
    · rintro ⟨reply, hreply⟩
      cases hreply
    · rintro _ _ ⟨⟩
      rfl

/-- Clients may take over the ids of the draft's own old graph. -/
theorem replaceGraph_iff_triage :
    ∃ reply, ((Operation.replaceGraph 2 Triage.graph).call.run Triage.drafted).1 = .ok reply := by
  have hstorable : Triage.graph.Storable := ⟨by decide, by decide, by decide⟩
  have hfits : Triage.graph.FitsInto Triage.drafted 2 := by
    refine ⟨by decide, ?_, by decide, by decide, by decide +kernel, by decide +kernel⟩
    rintro root ⟨⟩
    decide
  exact (replaceGraph_iff (v := ⟨2, 1, 1, .draft, some 10, 7, none⟩) Triage.reachable_drafted
    (by decide +kernel) rfl (by decide) hstorable).1.mpr hfits

/-! ## Whom an error is blamed on -/

theorem validateNew_ok {input : NewPlaybook} (h : PlaybookService.validateNew input = .ok ()) :
    PlaybookService.validateGraphInput input.graph = .ok () := by
  unfold PlaybookService.validateNew at h
  split_ifs at h
  exact h

/-- The requests that write a draft: a playbook with a definition, and a new graph. -/
inductive Operation.DraftWrite : Operation → Prop
  | post (playbookID versionID : UUID) (now : Time) (input : NewPlaybook) :
      DraftWrite (.submitPlaybook playbookID versionID now input)
  | put (versionID : UUID) (g : Graph) : DraftWrite (.submitGraph versionID g)

/-- The request passes the checks of the service and finds a draft to write to, and the first
thing the database refuses about it is a value that it cannot represent. -/
def Operation.UnstorableFirst (s : Store) : Operation → Prop
  | .submitPlaybook p v _ input =>
    PlaybookService.validateNew input = .ok () ∧ input.UnstorableFirst s p v
  | .submitGraph v g => PlaybookService.validateGraphInput g = .ok () ∧
    (∃ row ∈ s.versions, row.id = v ∧ row.isDraft = true) ∧ g.UnstorableFirst s v
  | _ => False

/-- The answer is not blamed on the server. -/
def Blameless (r : Except AppError Reply) : Prop := ∀ e, r = .error e → e.code ∈ clientCodes

theorem blameless_error {e : AppError} (h : e.code ∈ clientCodes) : Blameless (.error e) := by
  rintro _ ⟨⟩
  exact h

theorem Refused.blameless_iff {p : Prop} {e : Err} (h : Refused p e) :
    Blameless (.error (translate e)) ↔ ¬ p := by
  rcases h with ⟨hp, rfl⟩ | ⟨hp, he⟩
  · refine ⟨fun hblameless => absurd (hblameless _ rfl) (by decide), fun hnot => absurd hp hnot⟩
  · exact ⟨fun _ => hp, fun _ => blameless_error he⟩

/-- A version that is not there, or not a draft, is not written to. -/
theorem run_put_error {s : Store} {id : UUID} {g : Graph}
    (hnone : ¬ ∃ row ∈ s.versions, row.id = id ∧ row.isDraft = true) :
    ∃ e, (Operation.replaceGraph id g).call.run s = (.error e, s) ∧ e.code ∈ clientCodes := by
  have hcall : (Operation.replaceGraph id g).call.run s =
      (((replaceGraph id g).run.run s).1.map .definition, ((replaceGraph id g).run.run s).2) :=
    run_reply _ _ s
  rw [hcall, replaceGraph, run_inTx, replaceGraphBody, Txn.Body.run_bind_except, lockVersion,
    run_sql]
  cases hrow : (s.versionRows id).head? with
  | none =>
    simp only [applyAll_nil, hrow]
    exact ⟨_, rfl, by decide⟩
  | some row =>
    obtain ⟨hmem, hid⟩ := mem_versionRows.mp (List.mem_of_mem_head? hrow)
    have hdraft : row.isDraft = false := by
      rw [← Bool.not_eq_true]
      exact fun h => hnone ⟨row, hmem, hid, h⟩
    simp only [applyAll_nil, hrow, Answer.lockRow, Except.mapError, hdraft]
    refine ⟨_, rfl, ?_⟩
    show Code.versionNotDraft ∈ clientCodes
    decide

theorem put_blameless_iff {s : Store} (hs : Valid s) (id : UUID) (g : Graph) :
    Blameless ((Operation.submitGraph id g).call.run s).1 ↔
      ¬ (Operation.submitGraph id g).UnstorableFirst s := by
  cases hcheck : PlaybookService.validateGraphInput g with
  | error e =>
    rw [submitGraph_error hcheck]
    refine iff_of_true (blameless_error ?_) ?_
    · rw [(validateGraphInput_error hcheck).code]
      decide
    · rintro ⟨hok, -⟩
      cases hcheck.symm.trans hok
  | ok =>
    rw [submitGraph_ok hcheck]
    by_cases hdraft : ∃ row ∈ s.versions, row.id = id ∧ row.isDraft = true
    · obtain ⟨row, hrow, rfl, hisDraft⟩ := hdraft
      have hfirst : (Operation.submitGraph row.id g).UnstorableFirst s ↔
          g.UnstorableFirst s row.id :=
        ⟨fun h => h.2.2, fun h => ⟨hcheck, ⟨row, hrow, rfl, hisDraft⟩, h⟩⟩
      rw [hfirst]
      rcases run_replaceGraph hs hrow hisDraft hcheck with ⟨hok, d, hrun⟩ | ⟨-, e, hrun, he⟩
      · rw [hrun]
        exact iff_of_true (fun _ h => nomatch h) fun h => h.not_allowed hok.nodes hok.edges
      · rw [hrun]
        exact he.blameless_iff
    · obtain ⟨e, hrun, he⟩ := run_put_error (g := g) hdraft
      rw [hrun]
      exact iff_of_true (blameless_error he) fun h => hdraft h.2.1

theorem post_blameless_iff {s : Store} (hs : Valid s) (p id : UUID) (now : Time)
    (input : NewPlaybook) :
    Blameless ((Operation.submitPlaybook p id now input).call.run s).1 ↔
      ¬ (Operation.submitPlaybook p id now input).UnstorableFirst s := by
  cases hcheck : PlaybookService.validateNew input with
  | error e =>
    have hcall : (Operation.submitPlaybook p id now input).call.run s = (.error e, s) := by
      rw [Operation.call, PlaybookService.create, hcheck]
      rfl
    rw [hcall]
    refine iff_of_true (blameless_error ?_) ?_
    · rw [(validateNew_error hcheck).code]
      decide
    · rintro ⟨hok, -⟩
      cases hcheck.symm.trans hok
  | ok =>
    have hcall : (Operation.submitPlaybook p id now input).call.run s =
        (((create p id now input).run.run s).1.map fun r => .playbook r.1 r.2,
          ((create p id now input).run.run s).2) := by
      rw [Operation.call, PlaybookService.create, hcheck]
      exact run_reply _ _ s
    have hfirst : (Operation.submitPlaybook p id now input).UnstorableFirst s ↔
        input.UnstorableFirst s p id := and_iff_right hcheck
    obtain ⟨hnodeIDs, hedgeIDs⟩ := nodup_of_validateGraphInput (validateNew_ok hcheck)
    rw [hcall, hfirst, create, run_inTx]
    rcases @run_createBody id _ hs p now input hnodeIDs hedgeIDs with
      ⟨hnot, d, ws, hrun⟩ | ⟨e, ws, hrun, he⟩
    · simp only [hrun]
      exact iff_of_true (fun _ h => nomatch h) hnot
    · simp only [hrun]
      exact he.blameless_iff

theorem Operation.DraftWrite.single {op : Operation} (h : op.DraftWrite) : op.call.Single := by
  cases h with
  | post playbookID versionID now input =>
    exact single_checked _ _ (createBody playbookID versionID now input)
  | put versionID g => exact single_checked _ _ (replaceGraphBody versionID g)

theorem Operation.DraftWrite.blameless_iff {op : Operation} (h : op.DraftWrite) {s : Store}
    (hs : Valid s) : Blameless (op.call.run s).1 ↔ ¬ op.UnstorableFirst s := by
  cases h with
  | post playbookID versionID now input => exact post_blameless_iff hs playbookID versionID now input
  | put versionID g => exact put_blameless_iff hs versionID g

/-- A draft write is answered from one committed state of the run. The answer is not blamed on
the server exactly if the first thing that is refused about the request in this state is not
a value that the database cannot represent. -/
theorem draft_write_codes {ι : Type} [DecidableEq ι] {s : Store} (h : Reachable s)
    {ops : ι → Operation} {trace : List (ι × Txn.Event)} {sys : Server ι}
    (hrun : Txn.Run (clients s ops) trace sys) {k : ι} (hop : (ops k).DraftWrite)
    {r : Except AppError Reply} (hanswer : sys.session k = .idle (.ret r)) :
    ∃ trace₁ trace₂ now, trace = trace₁ ++ trace₂ ∧ Txn.Run (clients s ops) trace₁ now ∧
      Txn.Run now trace₂ sys ∧ r = ((ops k).call.run now.store).1 ∧
        (Blameless r ↔ ¬ (ops k).UnstorableFirst now.store) := by
  have hanswered : ∃ trace₁ trace₂ now, trace = trace₁ ++ trace₂ ∧
      Txn.Run (clients s ops) trace₁ now ∧ Txn.Run now trace₂ sys ∧
        r = ((ops k).call.run now.store).1 := by
    rcases (tracked_clients h.valid ops).single_answer hop.single hrun hanswer with
      hret | ⟨event, before, after, ⟨trace₁, trace₂, rfl, hbefore, hstep, hrest⟩, hcall⟩
    · refine ⟨[], trace, clients s ops, rfl, .nil _, hrun, ?_⟩
      rw [hret]
      rfl
    · exact ⟨trace₁, _, before, rfl, hbefore, (Txn.Run.single hstep).append hrest, by rw [hcall]⟩
  obtain ⟨trace₁, trace₂, now, htrace, hbefore, hrest, rfl⟩ := hanswered
  exact ⟨trace₁, trace₂, now, htrace, hbefore, hrest, rfl,
    hop.blameless_iff (h.run hbefore).valid⟩

/-- The triage graph with an edge that is to come last. -/
def Triage.lastly : Graph :=
  ⟨some 10, graph.nodes, [⟨20, 10, 11, "yes", none, 2147483648⟩]⟩

/-- The sort order is one past its column, and the answer blames the server. -/
theorem draft_write_internal : ¬ ∀ (s : Store) (v : UUID) (g : Graph), Reachable s →
    PlaybookService.validateGraphInput g = .ok () →
      Blameless ((Operation.submitGraph v g).call.run s).1 := by
  intro hclaim
  have hblameless := hclaim Triage.drafted 2 Triage.lastly (Reachable.empty.after _) (by decide)
  have hanswer : ((Operation.submitGraph 2 Triage.lastly).call.run Triage.drafted).1 =
      .error (translate .other) := by decide +kernel
  exact absurd (hblameless _ hanswer) (by decide)

theorem draft_write_codes_triage : ∃ now : Server Unit,
    (Operation.submitGraph 2 Triage.lastly).UnstorableFirst now.store := by
  obtain ⟨trace, hrun⟩ := run_operation Triage.drafted (.submitGraph 2 Triage.lastly)
  obtain ⟨-, -, now, -, -, -, -, hiff⟩ :=
    draft_write_codes Triage.reachable_drafted hrun (.put 2 Triage.lastly) (Txn.System.put_self ..)
  have hanswer : ((Operation.submitGraph 2 Triage.lastly).call.run Triage.drafted).1 =
      .error (translate .other) := by decide +kernel
  refine ⟨now, not_not.mp fun hfirst => ?_⟩
  exact absurd (hiff.mpr hfirst _ hanswer) (by decide)

end Interbellum
