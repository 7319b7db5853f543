import Interbellum.Frontend.PlaybookEditor
import Interbellum.Frontend.Received

/-!
# Saving what was loaded

A graph that the form has sent, loaded into a form again, is sent again as it was.

* `reload_graph`: every field is the same, and metadata is the same JSON.
-/

namespace Interbellum

open Frontend (PlaybookDraft NodeDraft EdgeDraft PlaybookNode PlaybookEdge PlaybookGraphInput
  serializeNode serializeEdge parseMetadata parseSortOrder serializePlaybookDraft loadedNode
  loadedEdge draftFromDefinition)
open Utf16 (Text)
open Ecma (Value)

/-- Nothing is left to trim. -/
theorem Utf16.Text.trim_trim (t : Text) : t.trim.trim = t.trim := by
  have hstart : t.trim.trimStart = t.trim := by
    refine List.dropWhile_eq_self_iff.mpr fun hlt => ?_
    have hshorter : t.trim <+: t.trimStart := List.rdropWhile_prefix _ _
    have hlt' : 0 < t.trimStart.length := hlt.trans_le hshorter.length_le
    rw [hshorter.getElem hlt]
    exact List.dropWhile_eq_self_iff.mp (List.dropWhile_idempotent _ _) hlt'
  calc t.trim.trim = t.trim.trimStart.rdropWhile Utf16.isSpace := rfl
    _ = t.trim.rdropWhile Utf16.isSpace := by rw [hstart]
    _ = t.trim := List.rdropWhile_idempotent _ _

/-! ## Fields -/

/-- `JSON.stringify` prints a text that `JSON.parse` reads as an equal value. The values are
compared by what is sent of them. -/
structure PrintsBack (stringify : List (Text × Value) → Text) (members : List (Text × Value)) :
    Prop where
  no_spaces : (stringify members).trim = stringify members
  parsed : ∃ members', Ecma.parseJson (stringify members) = some (.obj members') ∧
    Ecma.memberDocs members' = Ecma.memberDocs members

/-- The nodes agree in every field, as far as they are sent. -/
structure SameNode (n n' : PlaybookNode) : Prop where
  id : n'.id = n.id
  kind : n'.kind = n.kind
  title : n'.title = n.title
  description : n'.description = n.description
  resolution : n'.terminalResolution = n.terminalResolution
  metadata : n'.metadata.map Ecma.memberDocs = n.metadata.map Ecma.memberDocs

/-- The graphs agree in every field, as far as they are sent. -/
structure SameGraph (g g' : PlaybookGraphInput) : Prop where
  root : g'.rootNodeId = g.rootNodeId
  nodes : List.Forall₂ SameNode g.nodes g'.nodes
  edges : g'.edges = g.edges

section

variable {stringify : List (Text × Value) → Text}

theorem parseMetadata_loaded {metadata : Option (List (Text × Value))}
    (h : ∀ members ∈ metadata, PrintsBack stringify members) :
    ∃ value, parseMetadata ((metadata.map stringify).getD []) = .ok value ∧
      value.map Ecma.memberDocs = metadata.map Ecma.memberDocs := by
  cases metadata with
  | none => exact ⟨none, rfl, rfl⟩
  | some members =>
    obtain ⟨htrim, members', hparsed, hdocs⟩ := h members rfl
    refine ⟨some members', ?_, congrArg some hdocs⟩
    have hne : stringify members ≠ [] := by
      intro hempty
      rw [hempty] at hparsed
      cases hparsed
    rw [Option.map_some, Option.getD_some, parseMetadata, htrim, if_neg hne, hparsed]

theorem complete_loadedNode {n : NodeDraft} (hn : n.Complete)
    (h : ∀ members ∈ (serializeNode n).metadata, PrintsBack stringify members) :
    (loadedNode stringify (serializeNode n)).Complete := by
  obtain ⟨value, hvalue, -⟩ := parseMetadata_loaded h
  refine ⟨?_, fun hkind => ?_, ⟨value, hvalue⟩⟩
  · show n.title.trim.trim ≠ []
    rw [Text.trim_trim]
    exact hn.title
  · have hkind' : n.kind = .terminal := hkind
    show ((if n.kind = .terminal then some n.terminalResolution.trim else none).getD []).trim ≠ []
    rw [if_pos hkind', Option.getD_some, Text.trim_trim]
    exact hn.resolution hkind'

theorem sameNode_loadedNode {n : NodeDraft}
    (h : ∀ members ∈ (serializeNode n).metadata, PrintsBack stringify members) :
    SameNode (serializeNode n) (serializeNode (loadedNode stringify (serializeNode n))) := by
  refine ⟨rfl, rfl, Text.trim_trim _, Text.trim_trim _, ?_, ?_⟩
  · show (if n.kind = .terminal then
      some ((if n.kind = .terminal then some n.terminalResolution.trim else none).getD []).trim
        else none) = if n.kind = .terminal then some n.terminalResolution.trim else none
    split_ifs
    · rw [Option.getD_some, Text.trim_trim]
    · rfl
  · obtain ⟨value, hvalue, hdocs⟩ := parseMetadata_loaded h
    show Option.map _ (parseMetadata (((serializeNode n).metadata.map stringify).getD
      [])).toOption.join = _
    rw [hvalue]
    exact hdocs

/-- A sort order in the range of its column is printed as an integer and read back. -/
theorem parseSortOrder_text {x : Ecma.Number} {n : ℤ} (hx : x = .ofRat n)
    (hlow : -2147483648 ≤ n) (hhigh : n ≤ 2147483647) : parseSortOrder x.text = x := by
  have hsmall : |n| < 2 ^ 52 := abs_lt.mpr ⟨by omega, by omega⟩
  obtain ⟨y, hy, hshown⟩ := Ecma.ofRat_of_small hsmall
  have htext : x.text = Ecma.integerText n := by
    have hplain : |(n : Rat)| < 10 ^ 21 := by
      have : |(n : Rat)| < 2 ^ 52 := by exact_mod_cast hsmall
      linarith
    rw [hx, hy, Ecma.Number.text, hshown, if_pos ⟨rfl, hplain⟩, Rat.num_intCast]
  rw [parseSortOrder_eq, htext, Ecma.leadingInteger_integerText, Option.getD_some, hx]

theorem serializeEdge_loadedEdge {e : EdgeDraft} {n : ℤ}
    (hn : (serializeEdge e).sortOrder = .ofRat n) (hlow : -2147483648 ≤ n)
    (hhigh : n ≤ 2147483647) : serializeEdge (loadedEdge (serializeEdge e)) = serializeEdge e := by
  have horder := parseSortOrder_text hn hlow hhigh
  simp only [serializeEdge] at horder
  have hnil : Text.trim [] = [] := rfl
  by_cases hempty : e.description.trim = []
  · simp only [serializeEdge, loadedEdge, hempty, if_true, Option.getD_none, hnil, Text.trim_trim,
      horder]
  · simp only [serializeEdge, loadedEdge, hempty, if_false, Option.getD_some, Text.trim_trim,
      horder]

/-! ## The graph -/

theorem nodeIds_loaded (d : PlaybookDraft) :
    (draftFromDefinition stringify d.graph).nodeIds = d.nodeIds := by
  rw [PlaybookDraft.nodeIds, draftFromDefinition, List.map_map, PlaybookDraft.graph, List.map_map]
  rfl

theorem rootNodeId_loaded (d : PlaybookDraft) :
    (draftFromDefinition stringify d.graph).rootNodeId = d.rootNodeId := by
  show (if d.rootNodeId = [] then none else some d.rootNodeId).getD [] = d.rootNodeId
  split_ifs with hempty
  · exact hempty.symm
  · rfl

theorem edges_loaded (d : PlaybookDraft) :
    (draftFromDefinition stringify d.graph).edges =
      d.edges.map fun e => loadedEdge (serializeEdge e) := List.map_map

theorem nodes_loaded (d : PlaybookDraft) :
    (draftFromDefinition stringify d.graph).nodes =
      d.nodes.map fun n => loadedNode stringify (serializeNode n) := List.map_map

theorem complete_loaded {d : PlaybookDraft} (hd : d.Complete)
    (h : ∀ n ∈ d.nodes, ∀ members ∈ (serializeNode n).metadata, PrintsBack stringify members) :
    (draftFromDefinition stringify d.graph).Complete := by
  refine ⟨?_, ?_, ?_, ?_, ?_, ?_⟩
  · rw [nodes_loaded, List.forall_mem_map]
    exact fun n hn => complete_loadedNode (hd.nodes n hn) (h n hn)
  · rw [nodeIds_loaded]
    exact hd.node_ids
  · rw [edges_loaded, List.forall_mem_map, nodeIds_loaded]
    intro e he
    have hcomplete := hd.edges e he
    refine ⟨?_, hcomplete.from_picked, hcomplete.from_node, hcomplete.to_picked, hcomplete.to_node⟩
    show e.label.trim.trim ≠ []
    rw [Text.trim_trim]
    exact hcomplete.label
  · rw [edges_loaded, List.map_map]
    exact hd.edge_ids
  · rw [edges_loaded, List.map_map]
    have hchoices : (fun e : EdgeDraft => (e.fromNodeId, e.label.trim.trim)) =
        fun e => (e.fromNodeId, e.label.trim) := by
      ext e : 1
      rw [Text.trim_trim]
    exact (congrArg (fun f => (d.edges.map f).Nodup) hchoices).mpr hd.choices
  · rw [rootNodeId_loaded, nodeIds_loaded]
    exact hd.root

/-- A graph that was sent is sent again when it is loaded and saved. -/
theorem reload_graph {d : PlaybookDraft} {g : PlaybookGraphInput}
    (hg : serializePlaybookDraft d = .ok g)
    (hprint : ∀ n ∈ g.nodes, ∀ members ∈ n.metadata, PrintsBack stringify members)
    (horders : ∀ e ∈ g.edges, ∃ n : ℤ, e.sortOrder = .ofRat n ∧ -2147483648 ≤ n ∧
      n ≤ 2147483647) :
    ∃ g', serializePlaybookDraft (draftFromDefinition stringify g) = .ok g' ∧ SameGraph g g' := by
  obtain ⟨hd, rfl⟩ := Frontend.serializePlaybookDraft_eq_ok.mp hg
  have hprint' : ∀ n ∈ d.nodes, ∀ members ∈ (serializeNode n).metadata,
      PrintsBack stringify members :=
    fun n hn => hprint (serializeNode n) (List.mem_map_of_mem hn)
  refine ⟨_, Frontend.serializePlaybookDraft_eq_ok.mpr ⟨complete_loaded hd hprint', rfl⟩, ?_⟩
  refine ⟨?_, ?_, ?_⟩
  · show (if (draftFromDefinition stringify d.graph).rootNodeId = [] then none
      else some (draftFromDefinition stringify d.graph).rootNodeId) = _
    rw [rootNodeId_loaded]
    rfl
  · show List.Forall₂ SameNode (d.nodes.map serializeNode)
      ((draftFromDefinition stringify d.graph).nodes.map serializeNode)
    rw [nodes_loaded, List.map_map, List.forall₂_map_left_iff, List.forall₂_map_right_iff,
      List.forall₂_same]
    exact fun n hn => sameNode_loadedNode (hprint' n hn)
  · show (draftFromDefinition stringify d.graph).edges.map serializeEdge =
      d.edges.map serializeEdge
    rw [edges_loaded, List.map_map]
    refine List.map_congr_left fun e he => ?_
    obtain ⟨n, hn, hlow, hhigh⟩ := horders _ (List.mem_map_of_mem he)
    exact serializeEdge_loadedEdge hn hlow hhigh

end

/-- A question that may be asked again, with empty metadata. -/
def Triage.again : PlaybookDraft where
  rootNodeId := .ofString "00000000-0000-0000-0000-00000000000d"
  nodes := [⟨.ofString "00000000-0000-0000-0000-00000000000d", .decision,
    .ofString " Is it over? ", [], [], .ofString "\x7b\x7d"⟩]
  edges := [⟨.ofString "00000000-0000-0000-0000-00000000000f",
    .ofString "00000000-0000-0000-0000-00000000000d",
    .ofString "00000000-0000-0000-0000-00000000000d", .ofString "no", [], .ofString "7"⟩]

theorem reload_graph_triage : ∃ g', serializePlaybookDraft
    (draftFromDefinition (fun _ => .ofString "\x7b\x7d") Triage.again.graph) = .ok g' ∧
      SameGraph Triage.again.graph g' := by
  refine reload_graph (d := Triage.again) ?_ ?_ ?_
  · rw [serializePlaybookDraft, if_pos (by decide +kernel)]
  · intro n hn members hmembers
    obtain rfl := List.mem_singleton.mp hn
    have hmetadata : (serializeNode (Triage.again.nodes.head (by decide))).metadata =
        some [] := rfl
    obtain rfl := Option.some.inj (hmetadata.symm.trans hmembers)
    exact ⟨by decide +kernel, _, rfl, rfl⟩
  · intro e he
    obtain rfl := List.mem_singleton.mp he
    refine ⟨7, ?_, by norm_num, by norm_num⟩
    have horder : Ecma.leadingInteger (.ofString "7") = some 7 := by decide +kernel
    show parseSortOrder (.ofString "7") = _
    rw [parseSortOrder_eq, horder, Option.getD_some]

end Interbellum
