import Interbellum.Guarantees.Resaved

/-!
# Drafts that are opened again

A stored graph goes to the browser, into the form, back to the server and into the tables.

* `resave_iff`: which drafts can be saved from the form, and what they are then.
* `saved_again`: what the form has saved is saved again as it is.
-/

namespace Interbellum

open Frontend (PlaybookDraft NodeDraft EdgeDraft PlaybookGraphInput serializeNode
  serializePlaybookDraft loadDraft)
open PlaybookRepository (storedNode sortNodes sortEdgeRows)
open Http.Response (Writer toDefinition)
open Utf16 (Text)
open Ecma (Value)

variable {parse : String → Option UUID} {w : Writer} {g : Graph}

/-! ## When it can be saved again -/

theorem idOf_text (hw : w.Faithful parse) (id : UUID) :
    idOf parse (Text.ofString (w.id id)) = id := by
  rw [idOf, Text.toUnicode_ofString, hw.id, Option.getD_some]

theorem wellFormed_reopened_iff (hw : w.Faithful parse) (h : g.Kept)
    (hd : (reopened w g).Complete) :
    (received parse (reopened w g)).toGraph.WellFormed ↔
      (∀ n ∈ g.nodes, n.id ≠ UUID.nil) ∧ ∀ e ∈ g.edges, e.id ≠ UUID.nil := by
  have hnodes : (reopened w g).nodeIds.map (idOf parse) = g.nodes.map Node.id := by
    rw [nodeIds_reopened, List.map_map]
    exact (List.map_congr_left fun id _ => idOf_text hw id).trans (List.map_id _)
  have hedges : (reopened w g).edges.map (fun e => idOf parse e.id) = g.edges.map Edge.id := by
    rw [reopened, List.map_map]
    exact List.map_congr_left fun e _ => idOf_text hw e.id
  rw [wellFormed_received hd, hnodes, hedges, and_iff_right h.node_ids, and_iff_right h.edge_ids,
    nodeIds_reopened, List.forall_mem_map, List.forall_mem_map, reopened, List.forall_mem_map]
  refine and_congr (forall₂_congr fun n _ => ?_) (forall₂_congr fun e _ => ?_)
  · rw [idOf_text hw]
  · rw [show (reopenedEdge w e).id = Text.ofString (w.id e.id) from rfl, idOf_text hw]

theorem depth_reopened_iff (hw : w.Faithful parse) (h : g.Kept) :
    (reopened w g).graph.toDoc.depth ≤ Http.maxNestingDepth ↔
      ∀ n ∈ g.nodes, ∀ j ∈ n.resaved.metadata, j.depth ≤ 9997 := by
  rw [depth_graph_le_iff, reopened, List.forall_mem_map]
  exact forall₂_congr fun n hn => ((h.nodes n hn).received hw).2.2.2

theorem unusedIds_reopened (hw : w.Faithful parse) {s : Store} (hs : Design s) (v : Version) :
    UnusedIds parse s v.id (reopened w (s.graphOf v)) := by
  constructor
  · intro r hr hne n hn hparse
    obtain ⟨n', hn', rfl⟩ := List.mem_map.mp hn
    obtain ⟨r', hr', hversion, rfl⟩ := mem_nodesOf.mp (mem_graphOf_nodes.mp hn')
    have hid : (reopenedNode w r'.node).id.toUnicode = w.id r'.node.id := Text.toUnicode_ofString _
    rw [hid, hw.id] at hparse
    have hsame := List.inj_on_of_nodup_map hs.node_ids hr' hr (Option.some.inj hparse)
    exact hne (hsame ▸ hversion)
  · intro r hr hne e he hparse
    obtain ⟨e', he', rfl⟩ := List.mem_map.mp he
    obtain ⟨r', hr', hversion, rfl⟩ := mem_edgesOf.mp (mem_graphOf_edges.mp he')
    have hid : (reopenedEdge w r'.edge).id.toUnicode = w.id r'.edge.id := Text.toUnicode_ofString _
    rw [hid, hw.id] at hparse
    have hsame := List.inj_on_of_nodup_map hs.edge_ids hr' hr (Option.some.inj hparse)
    exact hne (hsame ▸ hversion)

theorem orders_reopened (h : g.Kept) : ∀ e ∈ (reopened w g).edges, OrderFits e.sortOrder :=
  List.forall_mem_map.mpr fun e he => (order_reopened (storable_edge_range (h.edges e he))).1

theorem fits_reopened (hw : w.Faithful parse) {s : Store} (hs : Design s) {v : Version}
    (h : (s.graphOf v).Kept) (hd : (reopened w (s.graphOf v)).Complete) :
    (received parse (reopened w (s.graphOf v))).toGraph.FitsInto s v.id := by
  have hnodup : ((reopened w (s.graphOf v)).nodeIds.map (idOf parse)).Nodup := by
    rw [nodeIds_reopened, List.map_map]
    rw [show List.map (idOf parse ∘ _) _ = (s.graphOf v).nodes.map Node.id from
      (List.map_congr_left fun id _ => idOf_text hw id).trans (List.map_id _)]
    exact h.node_ids
  refine (fits_received (idsParse_reopened hw) hd (unusedIds_reopened hw hs v) hnodup).mpr ?_
  have hchoices := hd.choices
  have hlabels : (reopened w (s.graphOf v)).edges.map
      (fun e => (e.fromNodeId, e.label.trim.toUnicode)) =
        ((reopened w (s.graphOf v)).edges.map fun e => (e.fromNodeId, e.label.trim)).map
          fun c => (c.1, c.2.toUnicode) := by
    rw [List.map_map]
    rfl
  rw [hlabels]
  refine List.Nodup.map_on ?_ hchoices
  rw [choices_reopened]
  intro c hc c' hc' heq
  obtain ⟨b, -, rfl⟩ := List.mem_map.mp hc
  obtain ⟨b', -, rfl⟩ := List.mem_map.mp hc'
  obtain ⟨hfrom, hto⟩ := Prod.mk.inj heq
  dsimp only at hto
  rw [Text.toUnicode_ofString, Text.toUnicode_ofString] at hto
  exact Prod.ext hfrom (congrArg Text.ofString hto)

theorem accepts_reopened_iff (hw : w.Faithful parse) {s : Store} (h : Reachable s) {v : Version}
    (hv : v ∈ s.versions) (hdraft : v.isDraft = true) :
    ((reopened w (s.graphOf v)).Complete ∧
        PutAccepts parse s v.id (reopened w (s.graphOf v)).graph.toDoc) ↔
      (s.graphOf v).resaved.Saveable := by
  have hkept := h.graph_kept hv
  have hrun := run_graph (idsParse_reopened hw) (d := reopened w (s.graphOf v))
  rw [Graph.saveable_resaved_iff]
  constructor
  · rintro ⟨hd, hdepth, req, hreq, hreply⟩
    obtain ⟨hnodes, hedges, hchoices⟩ := (complete_reopened_iff hw hkept).mp hd
    obtain rfl := Except.ok.inj ((hrun hd (orders_reopened hkept)).symm.trans hreq)
    obtain ⟨hwell, -, -⟩ := (submitGraph_iff h hv hdraft).mp hreply
    obtain ⟨hnodeIDs, hedgeIDs⟩ := (wellFormed_reopened_iff hw hkept hd).mp hwell
    exact ⟨fun n hn => ⟨hnodeIDs n hn, hnodes n hn⟩, fun e he => ⟨hedgeIDs e he, hedges e he⟩,
      hchoices, (depth_reopened_iff hw hkept).mp hdepth⟩
  · rintro ⟨hnodes, hedges, hchoices, hnesting⟩
    have hd : (reopened w (s.graphOf v)).Complete := (complete_reopened_iff hw hkept).mpr
      ⟨fun n hn => (hnodes n hn).2, fun e he => (hedges e he).2, hchoices⟩
    refine ⟨hd, (depth_reopened_iff hw hkept).mpr hnesting, _,
      hrun hd (orders_reopened hkept), (submitGraph_iff h hv hdraft).mpr ⟨?_, ?_, ?_⟩⟩
    · exact (wellFormed_reopened_iff hw hkept hd).mpr
        ⟨fun n hn => (hnodes n hn).1, fun e he => (hedges e he).1⟩
    · exact storable_received_reopened hw hkept
    · exact fits_reopened hw h.valid.toDesign hkept hd

/-! ## The answer -/

/-- The graph in the order of the queries. -/
def Graph.sorted (g : Graph) : Graph := ⟨g.rootNodeID, sortNodes g.nodes, sortEdgeRows g.edges⟩

/-- The graph as its rows hold it. -/
def Graph.stored (g : Graph) : Graph := { g with nodes := g.nodes.map storedNode }

theorem run_submitGraph {s : Store} (h : Reachable s) {v : Version} (hv : v ∈ s.versions)
    (hdraft : v.isDraft = true) {g : Graph} {reply : Reply} {t : Store}
    (hrun : (Operation.submitGraph v.id g).call.run s = (.ok reply, t)) :
    reply = .definition ⟨v.withRoot g.rootNodeID, g.stored.sorted⟩ ∧ t = replaced v.id g s := by
  obtain ⟨hwell, hstorable, hfits⟩ := (submitGraph_iff h hv hdraft).mp ⟨reply, by rw [hrun]⟩
  have hcheck := validateGraphInput_iff.mpr hwell
  have haccepted : g.Accepted s v.id :=
    (hstorable.accepted_iff (kind_valid_of_validateGraphInput hcheck)).mpr hfits
  obtain ⟨hnodeIDs, hedgeIDs⟩ := nodup_of_validateGraphInput hcheck
  have hcall : (Operation.replaceGraph v.id g).call.run s =
      (((PlaybookRepository.replaceGraph v.id g).run.run s).1.map .definition,
        ((PlaybookRepository.replaceGraph v.id g).run.run s).2) := run_reply _ _ s
  rw [submitGraph_ok hcheck, hcall, PlaybookRepository.replaceGraph, run_inTx] at hrun
  rcases run_replaceGraphBody h.valid (h.valid.toDesign.versionRows_eq hv) hdraft
    hnodeIDs hedgeIDs with ⟨-, hbody⟩ | ⟨hnot, -⟩
  · simp only [hbody] at hrun
    obtain ⟨hreply, ht⟩ := Prod.mk.inj hrun
    exact ⟨(Except.ok.inj hreply).symm, ht.symm⟩
  · exact absurd haccepted hnot

theorem graphOf_replaced {s : Store} (h : Reachable s) {v : Version} (hv : v ∈ s.versions)
    (hdraft : v.isDraft = true) (g : Graph) :
    (replaced v.id g s).graphOf (v.withRoot g.rootNodeID) = g.stored.sorted := by
  obtain ⟨-, hnodes, hedges⟩ := rows_replaced (g := g) h.valid hv hdraft
  show (⟨_, sortNodes ((replaced v.id g s).nodesOf v.id),
    sortEdgeRows ((replaced v.id g s).edgesOf v.id)⟩ : Graph) = _
  rw [hnodes, hedges]
  rfl

/-- The handler reads the draft of the form. -/
theorem replaceGraph_body {d : PlaybookDraft} {versionID contentType : String} {id : UUID}
    (hid : parse versionID = some id) (htype : Http.acceptsType contentType = true)
    (hids : IdsParse parse d) (hd : d.Complete) (horders : ∀ e ∈ d.edges, OrderFits e.sortOrder)
    (hdepth : d.graph.toDoc.depth ≤ Http.maxNestingDepth) :
    Http.replaceGraph parse versionID contentType d.graph.body =
      (Operation.submitGraph id (received parse d).toGraph).call := by
  have hdecode : Http.decodeJSON (Http.graphInput parse) contentType d.graph.body =
      .ok (received parse d) := Http.decodeJSON_eq_ok.mpr
    ⟨htype, _, Frontend.holds_body d, hdepth, run_graph hids hd horders⟩
  simp only [Http.replaceGraph, Http.pathUUID, hid, hdecode]

theorem stored_received_reopened (hw : w.Faithful parse) (h : g.Kept) :
    (received parse (reopened w g)).toGraph.stored = g.resaved := by
  rw [Graph.stored, nodes_received_reopened hw h, edges_received_reopened hw h,
    root_received_reopened hw]
  rfl

theorem exists_snd {α β : Type} {x : α × β} {a : α} (h : x.1 = a) : ∃ b, x = (a, b) :=
  ⟨x.2, Prod.ext h rfl⟩

theorem putAccepts_body (hw : w.Faithful parse) {s : Store} {id : UUID} {contentType : String}
    (htype : Http.acceptsType contentType = true) (d : PlaybookDraft) :
    PutAccepts parse s id d.graph.toDoc ↔
      ∃ reply, ((Http.replaceGraph parse (w.id id) contentType d.graph.body).run s).1 = .ok reply :=
  putAccepts_iff (hw.id id) htype (Frontend.holds_body d)

/-- What is answered to a draft that was loaded, and what is there then. -/
theorem run_reopened (hw : w.Faithful parse) {s : Store} (h : Reachable s) {v : Version}
    (hv : v ∈ s.versions) (hdraft : v.isDraft = true) {contentType : String}
    (htype : Http.acceptsType contentType = true) (hd : (reopened w (s.graphOf v)).Complete)
    {reply : Reply} {t : Store}
    (hrun : (Http.replaceGraph parse (w.id v.id) contentType
      (reopened w (s.graphOf v)).graph.body).run s = (.ok reply, t)) :
    reply = .definition ⟨v, (s.graphOf v).resaved.sorted⟩ ∧ t.versionRows v.id = [v] ∧
      t.graphOf v = (s.graphOf v).resaved.sorted ∧
        ∀ id, id ≠ v.id → t.versionRows id = s.versionRows id ∧
          t.nodeRows id = s.nodeRows id ∧ t.edgeRows id = s.edgeRows id := by
  have hkept := h.graph_kept hv
  obtain ⟨hdepth, -⟩ := (putAccepts_body hw htype _).mpr ⟨reply, by rw [hrun]⟩
  rw [replaceGraph_body (hw.id v.id) htype (idsParse_reopened hw) hd (orders_reopened hkept)
    hdepth] at hrun
  obtain ⟨rfl, rfl⟩ := run_submitGraph h hv hdraft hrun
  have hroot : v.withRoot (received parse (reopened w (s.graphOf v))).toGraph.rootNodeID = v := by
    rw [root_received_reopened hw]
    rfl
  have hgraph := graphOf_replaced h hv hdraft (received parse (reopened w (s.graphOf v))).toGraph
  obtain ⟨hrow, -, -⟩ := rows_replaced (g := (received parse (reopened w (s.graphOf v))).toGraph)
    h.valid hv hdraft
  rw [hroot, stored_received_reopened hw hkept] at hgraph
  rw [hroot] at hrow
  refine ⟨?_, hrow, hgraph, fun id hne => ?_⟩
  · rw [hroot, stored_received_reopened hw hkept]
  · obtain ⟨hversions, hnodes, hedges⟩ := same_replaced (s := s)
      (received parse (reopened w (s.graphOf v))).toGraph hne
    exact ⟨hversions.symm, hnodes.symm, hedges.symm⟩

/-- The draft of a version is loaded into the form. It can be saved from there exactly when what
the form makes of it is saveable, and then that is the graph of the version. -/
theorem resave_iff (hw : w.Faithful parse) {s : Store} (h : Reachable s) {v : Version}
    (hv : v ∈ s.versions) (hdraft : v.isDraft = true) {answer : Text}
    (hanswer : Http.Holds answer ((toDefinition ⟨v, s.graphOf v⟩).toDoc w)) {contentType : String}
    (htype : Http.acceptsType contentType = true) :
    ∃ d, loadDraft answer = some d ∧
      ((s.graphOf v).resaved.Saveable ↔ ∃ g reply t, serializePlaybookDraft d = .ok g ∧
        (Http.replaceGraph parse (w.id v.id) contentType g.body).run s = (.ok reply, t)) ∧
      ∀ g reply t, serializePlaybookDraft d = .ok g →
        (Http.replaceGraph parse (w.id v.id) contentType g.body).run s = (.ok reply, t) →
          reply = .definition ⟨v, (s.graphOf v).resaved.sorted⟩ ∧ t.versionRows v.id = [v] ∧
            t.graphOf v = (s.graphOf v).resaved.sorted ∧
              ∀ id, id ≠ v.id → t.versionRows id = s.versionRows id ∧
                t.nodeRows id = s.nodeRows id ∧ t.edgeRows id = s.edgeRows id := by
  refine ⟨_, loadDraft_answer (h.graph_kept hv).nodes hanswer, ?_, ?_⟩
  · rw [← accepts_reopened_iff hw h hv hdraft, putAccepts_body hw htype]
    constructor
    · rintro ⟨hd, reply, hreply⟩
      obtain ⟨t, hrun⟩ := exists_snd hreply
      exact ⟨_, reply, t, Frontend.serializePlaybookDraft_eq_ok.mpr ⟨hd, rfl⟩, hrun⟩
    · rintro ⟨g, reply, t, hg, hrun⟩
      obtain ⟨hd, rfl⟩ := Frontend.serializePlaybookDraft_eq_ok.mp hg
      exact ⟨hd, reply, by rw [hrun]⟩
  · intro g reply t hg hrun
    obtain ⟨hd, rfl⟩ := Frontend.serializePlaybookDraft_eq_ok.mp hg
    exact run_reopened hw h hv hdraft htype hd hrun

theorem prints_metadataMember {metadata : Option (List (String × Json))}
    (h : ∀ e ∈ metadata.getD [], (Ecma.jsonStyle 0).Prints (w.json e.2)) :
    (Ecma.jsonStyle 0).PrintsMembers (Http.Response.metadataMember w metadata) := by
  rw [Http.Response.metadataMember]
  cases hentries : metadata.getD [] with
  | nil => exact trivial
  | cons e rest =>
    rw [hentries] at h
    exact ⟨Frontend.printsMembers_map fun x hx => h x ((List.mem_insertionSort _).mp hx), trivial⟩

/-- The answer as a text. -/
theorem holds_definition {d : Http.Response.PlaybookVersionDefinition} (hversion : d.version < 2 ^ 52)
    (hmetadata : ∀ n ∈ d.nodes, ∀ e ∈ n.metadata.getD [], (Ecma.jsonStyle 0).Prints (w.json e.2))
    (horders : ∀ e ∈ d.edges, |e.sortOrder| < 2 ^ 52) :
    Http.Holds ((Ecma.jsonStyle 0).print (d.toDoc w)) (d.toDoc w) := by
  have hpointer : ∀ t, (Ecma.jsonStyle 0).Prints (Http.Response.textPointer t) := fun t => by
    cases t <;> exact trivial
  have hnodes : ∀ n ∈ d.nodes, (Ecma.jsonStyle 0).Prints (n.toDoc w) := fun n hn =>
    ⟨trivial, trivial, trivial, trivial, hpointer _, prints_metadataMember (hmetadata n hn)⟩
  have hedges : ∀ e ∈ d.edges, (Ecma.jsonStyle 0).Prints (e.toDoc w) := fun e he =>
    ⟨trivial, trivial, trivial, trivial, hpointer _, Ecma.prints_int 0 (horders e he), trivial⟩
  have hnumber : (Ecma.jsonStyle 0).Prints (.num ((d.version : ℤ) : Rat) true) :=
    Ecma.prints_int 0 (by rw [Nat.abs_cast]; exact_mod_cast hversion)
  refine Ecma.holds_print ⟨trivial, trivial, ?_, trivial, trivial, hpointer _, hpointer _,
    Frontend.printsItems_map hnodes, Frontend.printsItems_map hedges, trivial⟩
  simpa using hnumber

/-- The answer that shows a version. -/
def answerText (w : Writer) (d : Definition) : Text :=
  (Ecma.jsonStyle 0).print ((toDefinition d).toDoc w)

namespace Triage

/-- The row of the draft. -/
def version : Version := ⟨2, 1, 1, .draft, some 10, 7, none⟩

def writer : Writer := .canonical fun t => "2024-05-0" ++ toString t ++ "T00:00:00Z"

/-- Drafts of one question with metadata and two answers, none of the texts trimmed. -/
def untidy (label : String) : Store :=
  after [.createPlaybook 1 2 7 ⟨"triage", "", "ddos", ⟨some 10,
    [⟨10, .decision, "  Is it real?", "", none, some (.obj [("team", .str "abuse")])⟩,
     ⟨12, .terminal, "Done ", "", some " resolved", none⟩],
    [⟨20, 10, 12, "yes", none, 0⟩, ⟨21, 10, 12, label, some " ", 1⟩]⟩⟩] Store.empty

theorem reachable_untidy (label : String) : Reachable (untidy label) := Reachable.empty.after _

/-- One of the drafts as it is saved. -/
def tidied : Graph where
  rootNodeID := some 10
  nodes :=
    [⟨10, .decision, "Is it real?", "", none, some (.obj [("team", .str "abuse")])⟩,
     ⟨12, .terminal, "Done", "", some "resolved", none⟩]
  edges := [⟨20, 10, 12, "yes", none, 0⟩, ⟨21, 10, 12, "no", none, 1⟩]

theorem holds_answer {d : Definition} (hversion : (toDefinition d).version < 2 ^ 52)
    (hteam : ∀ n ∈ (toDefinition d).nodes, ∀ e ∈ n.metadata.getD [], e.2 = .str "abuse")
    (horders : ∀ e ∈ (toDefinition d).edges, |e.sortOrder| < 2 ^ 52) :
    Http.Holds (answerText writer d) ((toDefinition d).toDoc writer) := by
  refine holds_definition hversion ?_ horders
  intro n hn e he
  rw [hteam n hn e he]
  exact trivial

theorem resaved_untidy : ((untidy "no ").graphOf version).resaved.sorted = tidied.sorted := by
  decide +kernel

theorem saveable_untidy : ((untidy "no ").graphOf version).resaved.Saveable :=
  ⟨by decide +kernel, by decide +kernel, by decide +kernel, by decide +kernel⟩

end Triage

/-- One draft is saved with its texts trimmed and its metadata kept. The other one is not saved:
trimmed, its two answers are the same. -/
theorem resave_iff_triage :
    (∃ d g reply t,
      loadDraft (answerText Triage.writer
        ⟨Triage.version, (Triage.untidy "no ").graphOf Triage.version⟩) = some d ∧
      serializePlaybookDraft d = .ok g ∧
      (Http.replaceGraph Http.Response.readID (Triage.writer.id 2) "application/json" g.body).run
        (Triage.untidy "no ") = (.ok reply, t) ∧
      reply = .definition ⟨Triage.version, Triage.tidied.sorted⟩ ∧
      t.graphOf Triage.version = Triage.tidied.sorted) ∧
    ∃ d, loadDraft (answerText Triage.writer
        ⟨Triage.version, (Triage.untidy "yes ").graphOf Triage.version⟩) = some d ∧
      ¬ ∃ g reply t, serializePlaybookDraft d = .ok g ∧
        (Http.replaceGraph Http.Response.readID (Triage.writer.id 2) "application/json" g.body).run
          (Triage.untidy "yes ") = (.ok reply, t) := by
  have htype : Http.acceptsType "application/json" = true := by decide +kernel
  constructor
  · obtain ⟨d, hload, hiff, hsaved⟩ := resave_iff (v := Triage.version)
      (Http.Response.faithful_canonical _) (Triage.reachable_untidy "no ") (by decide +kernel) rfl
      (Triage.holds_answer (by decide) (by decide +kernel) (by decide +kernel)) htype
    obtain ⟨g, reply, t, hg, hrun⟩ := hiff.mp Triage.saveable_untidy
    obtain ⟨hreply, -, hgraph, -⟩ := hsaved g reply t hg hrun
    rw [Triage.resaved_untidy] at hreply hgraph
    exact ⟨d, g, reply, t, hload, hg, hrun, hreply, hgraph⟩
  · obtain ⟨d, hload, hiff, -⟩ := resave_iff (v := Triage.version)
      (Http.Response.faithful_canonical _) (Triage.reachable_untidy "yes ") (by decide +kernel) rfl
      (Triage.holds_answer (by decide) (by decide +kernel) (by decide +kernel)) htype
    have hsame : ¬ (((Triage.untidy "yes ").graphOf Triage.version).resaved.edges.map
        fun e => (e.fromNodeID, e.label)).Nodup := by decide +kernel
    exact ⟨d, hload, fun h => hsame (hiff.mpr h).choices⟩

/-! ## What the form has saved -/

/-- The values that the form sends are rounded already. -/
theorem rounded_marshalObject {members : List (Text × Value)} {j : Json}
    (hprecise : (Value.obj members).Precise)
    (hj : Http.marshalObject (some (rawEntries members)) = some j) :
    (∃ m rest, j = .obj (m :: rest)) ∧ j.rounded = j ∧
      (JsonText.depthMembers (Ecma.memberDocs members) ≤ 9996 → j.depth ≤ 9997) := by
  have hentries : ∀ e ∈ rawEntries members, (Http.toJson e.2).rounded = Http.toJson e.2 ∧
      e.2.depth ≤ JsonText.depthMembers (Ecma.memberDocs members) := by
    intro e he
    obtain ⟨before, k, v, after, rfl, -, rfl⟩ := mem_rawEntries.mp he
    have hmem : (k, v) ∈ before ++ (k, v) :: after :=
      List.mem_append_right _ List.mem_cons_self
    refine ⟨Ecma.rounded_toJson ((Ecma.preciseMembers_iff _).mp hprecise (k, v) hmem), ?_⟩
    rw [← Http.depth_toJson, ← Http.depth_toJsonMembers]
    refine (Json.depthMembers_le_iff _ _).mp le_rfl (Http.jsonbText k, Http.toJson v.toDoc) ?_
    rw [Ecma.toJsonMembers_memberDocs]
    exact List.mem_map_of_mem hmem
  cases hraw : rawEntries members with
  | nil =>
    rw [hraw] at hj
    cases hj
  | cons e rest =>
    rw [hraw] at hj hentries
    obtain rfl := Option.some.inj hj
    have hall : ∀ x ∈ (e :: rest).insertionSort fun a b => a.1 ≤ b.1,
        (Http.toJson x.2).rounded = Http.toJson x.2 ∧
          x.2.depth ≤ JsonText.depthMembers (Ecma.memberDocs members) :=
      fun x hx => hentries x ((List.mem_insertionSort _).mp hx)
    refine ⟨?_, ?_, fun hdepth => ?_⟩
    · cases hsorted : (e :: rest).insertionSort fun a b => a.1 ≤ b.1 with
      | nil =>
        have hlength := congrArg List.length hsorted
        rw [List.length_insertionSort] at hlength
        exact absurd hlength (Nat.succ_ne_zero _)
      | cons x more =>
        refine ⟨(x.1, Http.toJson x.2), more.map fun e => (e.1, Http.toJson e.2), ?_⟩
        show Json.obj (List.map _ ((e :: rest).insertionSort _)) = _
        rw [hsorted]
        rfl
    · rw [Json.rounded, Json.roundedMembers_eq, List.map_map]
      exact congrArg Json.obj (List.map_congr_left fun x hx => Prod.ext rfl (hall x hx).1)
    · rw [Json.depth, Nat.add_le_add_iff_right, Json.depthMembers_le_iff, List.forall_mem_map]
      intro x hx
      rw [Http.depth_toJson]
      exact (hall x hx).2.trans hdepth

theorem resavedMetadata_jsonb {m : String × Json} {rest : List (String × Json)}
    (h : (Json.obj (m :: rest)).rounded = .obj (m :: rest)) :
    resavedMetadata (some (Json.obj (m :: rest)).jsonb) = some (Json.obj (m :: rest)).jsonb := by
  have hsame := (Json.same_jsonb (.obj (m :: rest))).rounded.jsonb_eq
  rw [h] at hsame
  rw [Json.jsonb] at hsame ⊢
  cases hmembers : Json.jsonbMembers [] (m :: rest) with
  | nil =>
    have hempty : (Json.obj []).Same (.obj (m :: rest)) :=
      Json.same_iff.mpr (congrArg Json.obj hmembers.symm)
    exact absurd (Json.same_empty hempty) (List.cons_ne_nil _ _)
  | cons x more =>
    rw [hmembers] at hsame
    exact congrArg some hsame

theorem resaved_receivedNode (n : NodeDraft) :
    (storedNode (receivedNode parse n)).resaved = storedNode (receivedNode parse n) := by
  have htrimmed : ∀ t : Text, Text.trimmed t.trim.toUnicode = t.trim.toUnicode :=
    fun t => Text.trimmed_toUnicode (Text.trim_trim t)
  have hresolution : (receivedNode parse n).terminalResolution.map Text.trimmed =
      (receivedNode parse n).terminalResolution := by
    show ((if n.kind = .terminal then some n.terminalResolution.trim else none).map
      Text.toUnicode).map Text.trimmed = (if n.kind = .terminal then
        some n.terminalResolution.trim else none).map Text.toUnicode
    split_ifs
    · rw [Option.map_some, Option.map_some, htrimmed]
    · rfl
  have hmetadata : resavedMetadata ((receivedNode parse n).metadata.map Json.jsonb) =
      (receivedNode parse n).metadata.map Json.jsonb := by
    show resavedMetadata ((Http.marshalObject ((serializeNode n).metadata.map rawEntries)).map
      Json.jsonb) = (Http.marshalObject ((serializeNode n).metadata.map rawEntries)).map Json.jsonb
    cases hmembers : (serializeNode n).metadata with
    | none => rfl
    | some members =>
      cases hj : Http.marshalObject ((some members).map rawEntries) with
      | none => rfl
      | some j =>
        obtain ⟨⟨m, rest, rfl⟩, hrounded, -⟩ :=
          rounded_marshalObject (Frontend.precise_serializeNode n members hmembers) hj
        exact resavedMetadata_jsonb hrounded
  show Node.mk _ _ (Text.trimmed n.title.trim.toUnicode) (Text.trimmed n.description.trim.toUnicode)
    ((receivedNode parse n).terminalResolution.map Text.trimmed)
    (resavedMetadata ((receivedNode parse n).metadata.map Json.jsonb)) = _
  rw [htrimmed, htrimmed, hresolution, hmetadata]
  rfl

theorem resaved_receivedEdge (e : EdgeDraft) :
    (receivedEdge parse e).resaved = receivedEdge parse e := by
  have htrimmed : ∀ t : Text, Text.trimmed t.trim.toUnicode = t.trim.toUnicode :=
    fun t => Text.trimmed_toUnicode (Text.trim_trim t)
  have hdescription : (((if e.description.trim = [] then none else some e.description.trim).map
      Text.toUnicode).map Text.trimmed).filter (fun t => t ≠ "") =
        (if e.description.trim = [] then none else some e.description.trim).map Text.toUnicode := by
    split_ifs with hempty
    · rfl
    · rw [Option.map_some, Option.map_some, htrimmed, Option.filter_some, if_pos]
      exact decide_eq_true (Text.toUnicode_eq_empty.not.mpr hempty)
  show Edge.mk _ _ _ (Text.trimmed e.label.trim.toUnicode) _ _ = _
  rw [htrimmed]
  exact congrArg (fun d => Edge.mk _ _ _ _ d _) hdescription

theorem sorted_sorted (g : Graph) : g.sorted.sorted = g.sorted := by
  have hnodes : sortNodes (sortNodes g.nodes) = sortNodes g.nodes :=
    ((pairwise_insertionSort_of nodeOrder_iff g.nodes).imp (nodeOrder_iff _ _).mpr).insertionSort_eq
  have hedges : sortEdgeRows (sortEdgeRows g.edges) = sortEdgeRows g.edges :=
    ((pairwise_insertionSort_of edgeOrder_iff g.edges).imp (edgeOrder_iff _ _).mpr).insertionSort_eq
  show (⟨_, sortNodes (sortNodes g.nodes), sortEdgeRows (sortEdgeRows g.edges)⟩ : Graph) = _
  rw [hnodes, hedges]
  rfl

/-- What the form has saved is saved again as it is. -/
theorem resaved_received (d : PlaybookDraft) :
    (received parse d).toGraph.stored.sorted.resaved = (received parse d).toGraph.stored.sorted := by
  have hnodes : ∀ n ∈ (received parse d).toGraph.stored.sorted.nodes, n.resaved = n := by
    intro n hn
    have hmem : n ∈ (received parse d).toGraph.nodes.map storedNode :=
      (List.mem_insertionSort _).mp hn
    rw [nodes_received, List.map_map] at hmem
    obtain ⟨n', -, rfl⟩ := List.mem_map.mp hmem
    exact resaved_receivedNode n'
  have hedges : ∀ e ∈ (received parse d).toGraph.stored.sorted.edges, e.resaved = e := by
    intro e he
    have hmem : e ∈ (received parse d).toGraph.edges := (List.mem_insertionSort _).mp he
    rw [edges_received] at hmem
    obtain ⟨e', -, rfl⟩ := List.mem_map.mp hmem
    exact resaved_receivedEdge e'
  generalize (received parse d).toGraph.stored.sorted = g at hnodes hedges ⊢
  rw [Graph.resaved, (List.map_congr_left hnodes).trans (List.map_id _),
    (List.map_congr_left hedges).trans (List.map_id _)]

theorem saveable_received {d : PlaybookDraft} (hd : d.Complete)
    (hdepth : d.graph.toDoc.depth ≤ Http.maxNestingDepth)
    (hwell : (received parse d).toGraph.WellFormed)
    (hchoices : ((received parse d).toGraph.edges.map fun e => (e.fromNodeID, e.label)).Nodup) :
    (received parse d).toGraph.stored.sorted.Saveable := by
  have hnode : ∀ n ∈ (received parse d).toGraph.stored.sorted.nodes,
      ∃ n' ∈ d.nodes, n = storedNode (receivedNode parse n') := by
    intro n hn
    have hmem : n ∈ (received parse d).toGraph.nodes.map storedNode :=
      (List.mem_insertionSort _).mp hn
    rw [nodes_received, List.map_map] at hmem
    obtain ⟨n', hn', rfl⟩ := List.mem_map.mp hmem
    exact ⟨n', hn', rfl⟩
  have hedge : ∀ e ∈ (received parse d).toGraph.stored.sorted.edges,
      e ∈ (received parse d).toGraph.edges := fun e he => (List.mem_insertionSort _).mp he
  refine ⟨fun n hn => ?_, fun e he => ?_, ?_, fun n hn => ?_⟩
  · obtain ⟨n', hn', rfl⟩ := hnode n hn
    have hmem : receivedNode parse n' ∈ (received parse d).toGraph.nodes :=
      nodes_received ▸ List.mem_map_of_mem hn'
    obtain ⟨hid, -, htitle⟩ := hwell.nodes _ hmem
    refine ⟨hid, htitle, ?_⟩
    show (if n'.kind = .terminal then some n'.terminalResolution.trim else none).map
      Text.toUnicode ≠ some ""
    split_ifs with hkind
    · intro hempty
      exact (hd.nodes n' hn').resolution hkind
        (Text.toUnicode_eq_empty.mp (Option.some.inj hempty))
    · exact Option.some_ne_none _ |>.symm
  · obtain ⟨hid, hlabel, -⟩ := hwell.edges e (hedge e he)
    exact ⟨hid, hlabel⟩
  · have hperm : (received parse d).toGraph.stored.sorted.edges.Perm
        (received parse d).toGraph.edges := List.perm_insertionSort _ _
    exact ((hperm.map _).nodup_iff).mpr hchoices
  · obtain ⟨n', hn', rfl⟩ := hnode n hn
    intro j hj
    obtain ⟨j', hj', rfl⟩ := Option.map_eq_some_iff.mp hj
    refine (Json.depth_jsonb_le j').trans ?_
    have hsent : Http.marshalObject ((serializeNode n').metadata.map rawEntries) = some j' := hj'
    cases hmembers : (serializeNode n').metadata with
    | none =>
      rw [hmembers] at hsent
      cases hsent
    | some members =>
      rw [hmembers] at hsent
      have hprecise := Frontend.precise_serializeNode n' members hmembers
      exact (rounded_marshalObject hprecise hsent).2.2
        ((depth_graph_le_iff d).mp hdepth n' hn' members hmembers)

/-- A graph that the form has saved is loaded into the form and saved again. Nothing changes. -/
theorem saved_again (hw : w.Faithful parse) {s : Store} (h : Reachable s) {v : Version}
    (hv : v ∈ s.versions) (hdraft : v.isDraft = true) {d : PlaybookDraft} (hids : IdsParse parse d)
    {g : PlaybookGraphInput} (hg : serializePlaybookDraft d = .ok g) {contentType : String}
    (htype : Http.acceptsType contentType = true) {reply : Reply} {t : Store}
    (hput : (Http.replaceGraph parse (w.id v.id) contentType g.body).run s = (.ok reply, t)) :
    ∃ definition, reply = .definition definition ∧
      ∀ answer, Http.Holds answer ((toDefinition definition).toDoc w) →
        ∃ d' g', loadDraft answer = some d' ∧ serializePlaybookDraft d' = .ok g' ∧
          ((Http.replaceGraph parse (w.id v.id) contentType g'.body).run t).1 =
            .ok (.definition definition) := by
  obtain ⟨hd, rfl⟩ := Frontend.serializePlaybookDraft_eq_ok.mp hg
  have haccepts : PutAccepts parse s v.id d.graph.toDoc :=
    (putAccepts_body hw htype d).mpr ⟨reply, by rw [hput]⟩
  rw [replaceGraph_body (hw.id v.id) htype hids hd (orders_of_putAccepts h hv hdraft hids hd haccepts)
    haccepts.1] at hput
  obtain ⟨rfl, ht⟩ := run_submitGraph h hv hdraft hput
  refine ⟨_, rfl, fun answer hanswer => ?_⟩
  -- the state after the first request, and the version in it
  have hreachable : Reachable t := by
    have hafter := h.operation (.submitGraph v.id (received parse d).toGraph)
    rwa [hput] at hafter
  have hgraph : t.graphOf (v.withRoot (received parse d).toGraph.rootNodeID) =
      (received parse d).toGraph.stored.sorted := ht ▸ graphOf_replaced h hv hdraft _
  have hv' : v.withRoot (received parse d).toGraph.rootNodeID ∈ t.versions := by
    obtain ⟨hrow, -, -⟩ := rows_replaced (g := (received parse d).toGraph) h.valid hv hdraft
    rw [← ht] at hrow
    exact List.mem_of_mem_filter (hrow ▸ List.mem_singleton_self _)
  -- saving again
  have hresaved : (t.graphOf (v.withRoot (received parse d).toGraph.rootNodeID)).resaved =
      (received parse d).toGraph.stored.sorted := by rw [hgraph, resaved_received]
  have hsaveable : (t.graphOf (v.withRoot (received parse d).toGraph.rootNodeID)).resaved.Saveable := by
    obtain ⟨hwell, -, hfits⟩ := (submitGraph_iff h hv hdraft).mp ⟨_, by rw [hput]⟩
    rw [hresaved]
    exact saveable_received hd haccepts.1 hwell hfits.choices
  obtain ⟨hd', haccepts'⟩ := (accepts_reopened_iff hw hreachable hv' hdraft).mpr hsaveable
  obtain ⟨reply, hreply⟩ := (putAccepts_body hw htype _).mp haccepts'
  obtain ⟨t', hrun⟩ := exists_snd hreply
  have hsame := (run_reopened hw hreachable hv' hdraft htype hd' hrun).1
  rw [hresaved, sorted_sorted] at hsame
  refine ⟨_, _, loadDraft_answer (hreachable.graph_kept hv').nodes (hgraph ▸ hanswer),
    Frontend.serializePlaybookDraft_eq_ok.mpr ⟨hd', rfl⟩, hreply.trans (congrArg _ hsame)⟩

/-- The draft is saved, which trims its texts. Loaded and saved again it stays as it is. -/
theorem saved_again_triage : ∃ g definition t d' g',
    (Http.replaceGraph Http.Response.readID (Triage.writer.id 2) "application/json"
      (PlaybookGraphInput.body g)).run (Triage.untidy "no ") = (.ok (.definition definition), t) ∧
    definition = ⟨Triage.version, Triage.tidied.sorted⟩ ∧
    definition.graph ≠ (Triage.untidy "no ").graphOf Triage.version ∧
    loadDraft (answerText Triage.writer definition) = some d' ∧
    serializePlaybookDraft d' = .ok g' ∧
    ((Http.replaceGraph Http.Response.readID (Triage.writer.id 2) "application/json"
      g'.body).run t).1 = .ok (.definition definition) := by
  have hw : Triage.writer.Faithful Http.Response.readID := Http.Response.faithful_canonical _
  have hreachable := Triage.reachable_untidy "no "
  have hversion : Triage.version ∈ (Triage.untidy "no ").versions := by decide +kernel
  have htype : Http.acceptsType "application/json" = true := by decide +kernel
  obtain ⟨hd, haccepts⟩ :=
    (accepts_reopened_iff hw hreachable hversion rfl).mpr Triage.saveable_untidy
  obtain ⟨reply, hreply⟩ := (putAccepts_body hw htype _).mp haccepts
  obtain ⟨t, hrun⟩ := exists_snd hreply
  have hsaved := (run_reopened hw hreachable hversion rfl htype hd hrun).1
  rw [Triage.resaved_untidy] at hsaved
  obtain ⟨definition, he, hagain⟩ := saved_again hw hreachable hversion rfl (idsParse_reopened hw)
    (Frontend.serializePlaybookDraft_eq_ok.mpr ⟨hd, rfl⟩) htype hrun
  obtain rfl : ⟨Triage.version, Triage.tidied.sorted⟩ = definition :=
    Reply.definition.inj (hsaved.symm.trans he)
  obtain ⟨d', g', hload, hg', hsame⟩ := hagain _ (Triage.holds_answer (by decide)
    (by decide +kernel) (by decide +kernel))
  subst hsaved
  exact ⟨_, _, t, d', g', hrun, rfl, by decide +kernel, hload, hg', hsame⟩

end Interbellum
