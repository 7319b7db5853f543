import Interbellum.Ecma.Json

/-!
# The authoring form

`serializePlaybookDraft` turns the strings of the form into the graph that is sent, or reports
every problem it finds. The sets of ids and labels seen so far are lists, and the map from a
node to the labels of its edges is a list of pairs.
-/

namespace Interbellum.Frontend

open Ecma (Value)
open Utf16 (Text)
open JsonText (Doc)

inductive PlaybookNodeKind where
  | decision
  | terminal
  deriving DecidableEq, Repr

structure NodeDraft where
  id : Text
  kind : PlaybookNodeKind
  title : Text
  description : Text
  terminalResolution : Text
  metadata : Text

/-- An endpoint is empty while none has been picked. -/
structure EdgeDraft where
  id : Text
  fromNodeId : Text
  toNodeId : Text
  label : Text
  description : Text
  sortOrder : Text

/-- The root is empty while none has been chosen. -/
structure PlaybookDraft where
  rootNodeId : Text
  nodes : List NodeDraft
  edges : List EdgeDraft

/-! ## The graph that is sent -/

structure PlaybookNode where
  id : Text
  kind : PlaybookNodeKind
  title : Text
  description : Text
  terminalResolution : Option Text
  metadata : Option (List (Text × Value))

structure PlaybookEdge where
  id : Text
  fromNodeId : Text
  toNodeId : Text
  label : Text
  description : Option Text
  sortOrder : Ecma.Number

structure PlaybookGraphInput where
  rootNodeId : Option Text
  nodes : List PlaybookNode
  edges : List PlaybookEdge

def PlaybookNodeKind.text : PlaybookNodeKind → String
  | .decision => "decision"
  | .terminal => "terminal"

/-- A member of an object literal. -/
def member (name : String) (d : Doc) : Text × Doc := (.ofString name, d)

def textDoc : Option Text → Doc
  | none => .null
  | some t => .str t

def PlaybookNode.toDoc (n : PlaybookNode) : Doc :=
  .obj [member "id" (.str n.id), member "kind" (.str (.ofString n.kind.text)),
    member "title" (.str n.title), member "description" (.str n.description),
    member "terminal_resolution" (textDoc n.terminalResolution),
    member "metadata" (match n.metadata with
      | none => .null
      | some members => .obj (Ecma.memberDocs members))]

def PlaybookEdge.toDoc (e : PlaybookEdge) : Doc :=
  .obj [member "id" (.str e.id), member "from_node_id" (.str e.fromNodeId),
    member "to_node_id" (.str e.toNodeId), member "label" (.str e.label),
    member "description" (textDoc e.description), member "sort_order" e.sortOrder.toDoc]

/-- What `JSON.stringify` writes of the graph, the body of a draft `PUT`. -/
def PlaybookGraphInput.toDoc (g : PlaybookGraphInput) : Doc :=
  .obj [member "root_node_id" (textDoc g.rootNodeId),
    member "nodes" (.arr (g.nodes.map PlaybookNode.toDoc)),
    member "edges" (.arr (g.edges.map PlaybookEdge.toDoc))]

/-! ## Problems -/

inductive DraftErrorScope where
  | node
  | edge
  | root
  deriving DecidableEq, Repr

inductive DraftErrorField where
  | id
  | title
  | terminalResolution
  | metadata
  | label
  | fromNodeId
  | toNodeId
  | rootNodeId
  deriving DecidableEq, Repr

/-- `index` is -1 for a problem of the graph as a whole. -/
structure DraftError where
  scope : DraftErrorScope
  index : Int
  field : DraftErrorField
  message : Text
  deriving DecidableEq, Repr

def DraftError.of (scope : DraftErrorScope) (index : Int) (field : DraftErrorField)
    (message : String) : DraftError := ⟨scope, index, field, .ofString message⟩

/-- The problem as a list, which is empty unless the condition holds. -/
def problem (condition : Prop) [Decidable condition] (e : DraftError) : List DraftError :=
  if condition then [e] else []

/-! ## Fields -/

/-- The value of a metadata field, or what is wrong with it. -/
def parseMetadata (raw : Text) : Except String (Option (List (Text × Value))) :=
  if raw.trim = [] then .ok none
  else
    match Ecma.parseJson raw.trim with
    | none => .error "Metadata is not valid JSON."
    | some (.obj members) => .ok (some members)
    | some _ => .error ("Metadata must be a JSON object, for example " ++
        "\x7b\"suggested_evidence\": [\"asset_inventory_lookup\"]\x7d.")

/-- A blank or unparseable box means no preference, which is 0. -/
def parseSortOrder (raw : Text) : Ecma.Number := (Ecma.parseInt raw).getD (.ofRat 0)

/-! ## Nodes and edges -/

def nodeErrors (seen : List Text) (index : ℕ) (node : NodeDraft) : List DraftError :=
  problem (node.id ∈ seen) (.of .node index .id "This node's id is already used by another node.") ++
  problem (node.title.trim = []) (.of .node index .title "Title is required.") ++
  problem (node.kind = .terminal ∧ node.terminalResolution.trim = [])
    (.of .node index .terminalResolution
      "A terminal node must carry a resolution — it is the investigation's outcome.") ++
  match parseMetadata node.metadata with
  | .error message => [.of .node index .metadata message]
  | .ok _ => []

def serializeNode (node : NodeDraft) : PlaybookNode where
  id := node.id
  kind := node.kind
  title := node.title.trim
  description := node.description.trim
  terminalResolution := if node.kind = .terminal then some node.terminalResolution.trim else none
  metadata := (parseMetadata node.metadata).toOption.join

/-- The problems of the nodes, counted from `index`; `seen` are the ids before them. -/
def checkNodes (seen : List Text) (index : ℕ) : List NodeDraft → List DraftError
  | [] => []
  | node :: rest => nodeErrors seen index node ++ checkNodes (node.id :: seen) (index + 1) rest

def endpointErrors (nodeIds : List Text) (index : ℕ) (field : DraftErrorField) (value : Text) :
    List DraftError :=
  if value = [] then [.of .edge index field "Pick a node."]
  else problem (value ∉ nodeIds)
    (.of .edge index field "That node is no longer part of this draft.")

/-- The labels to remember of an edge, with the node it leaves. -/
def labelled (edge : EdgeDraft) : List (Text × Text) :=
  if edge.fromNodeId ≠ [] ∧ edge.label.trim ≠ [] then [(edge.fromNodeId, edge.label.trim)] else []

def labelMessage (label : Text) : Text :=
  .ofString "Another choice leaving this node is already labelled “" ++ label ++
    .ofString "”. One label per node."

def edgeErrors (nodeIds seen : List Text) (labels : List (Text × Text)) (index : ℕ)
    (edge : EdgeDraft) : List DraftError :=
  problem (edge.id ∈ seen) (.of .edge index .id "This edge's id is already used by another edge.") ++
  problem (edge.label.trim = [])
    (.of .edge index .label "Label is required — it is what an analyst picks.") ++
  endpointErrors nodeIds index .fromNodeId edge.fromNodeId ++
  endpointErrors nodeIds index .toNodeId edge.toNodeId ++
  problem (∃ l ∈ labelled edge, l ∈ labels) ⟨.edge, index, .label, labelMessage edge.label.trim⟩

def serializeEdge (edge : EdgeDraft) : PlaybookEdge where
  id := edge.id
  fromNodeId := edge.fromNodeId
  toNodeId := edge.toNodeId
  label := edge.label.trim
  description := if edge.description.trim = [] then none else some edge.description.trim
  sortOrder := parseSortOrder edge.sortOrder

def checkEdges (nodeIds seen : List Text) (labels : List (Text × Text)) (index : ℕ) :
    List EdgeDraft → List DraftError
  | [] => []
  | edge :: rest => edgeErrors nodeIds seen labels index edge ++
      checkEdges nodeIds (edge.id :: seen) (labelled edge ++ labels) (index + 1) rest

def rootErrors (nodeIds : List Text) (rootNodeId : Text) : List DraftError :=
  problem (rootNodeId ≠ [] ∧ rootNodeId ∉ nodeIds)
    (.of .root (-1) .rootNodeId "The chosen root is no longer part of this draft.")

namespace PlaybookDraft

def nodeIds (draft : PlaybookDraft) : List Text := draft.nodes.map NodeDraft.id

def errors (draft : PlaybookDraft) : List DraftError :=
  checkNodes [] 0 draft.nodes ++ checkEdges draft.nodeIds [] [] 0 draft.edges ++
    rootErrors draft.nodeIds draft.rootNodeId

def graph (draft : PlaybookDraft) : PlaybookGraphInput where
  rootNodeId := if draft.rootNodeId = [] then none else some draft.rootNodeId
  nodes := draft.nodes.map serializeNode
  edges := draft.edges.map serializeEdge

end PlaybookDraft

def serializePlaybookDraft (draft : PlaybookDraft) : Except (List DraftError) PlaybookGraphInput :=
  if draft.errors = [] then .ok draft.graph else .error draft.errors

/-! ## What is sent -/

@[simp] theorem problem_eq_nil {condition : Prop} [Decidable condition] {e : DraftError} :
    problem condition e = [] ↔ ¬ condition := by
  unfold problem
  split_ifs with h <;> simp [h]

structure NodeDraft.Complete (node : NodeDraft) : Prop where
  title : node.title.trim ≠ []
  resolution : node.kind = .terminal → node.terminalResolution.trim ≠ []
  metadata : ∃ value, parseMetadata node.metadata = .ok value

structure EdgeDraft.Complete (nodeIds : List Text) (edge : EdgeDraft) : Prop where
  label : edge.label.trim ≠ []
  from_picked : edge.fromNodeId ≠ []
  from_node : edge.fromNodeId ∈ nodeIds
  to_picked : edge.toNodeId ≠ []
  to_node : edge.toNodeId ∈ nodeIds

structure PlaybookDraft.Complete (draft : PlaybookDraft) : Prop where
  nodes : ∀ node ∈ draft.nodes, node.Complete
  node_ids : draft.nodeIds.Nodup
  edges : ∀ edge ∈ draft.edges, edge.Complete draft.nodeIds
  edge_ids : (draft.edges.map EdgeDraft.id).Nodup
  choices : (draft.edges.map fun edge => (edge.fromNodeId, edge.label.trim)).Nodup
  root : draft.rootNodeId ≠ [] → draft.rootNodeId ∈ draft.nodeIds

theorem nodeErrors_eq_nil {seen : List Text} {index : ℕ} {node : NodeDraft} :
    nodeErrors seen index node = [] ↔ node.id ∉ seen ∧ node.Complete := by
  unfold nodeErrors
  cases hmetadata : parseMetadata node.metadata with
  | error message =>
    simp only [List.append_eq_nil_iff, List.cons_ne_nil, and_false, false_iff]
    rintro ⟨-, -, -, value, hvalue⟩
    rw [hmetadata] at hvalue
    cases hvalue
  | ok value =>
    simp only [List.append_eq_nil_iff, problem_eq_nil, and_true, not_and]
    constructor
    · rintro ⟨⟨hid, htitle⟩, hresolution⟩
      exact ⟨hid, htitle, hresolution, value, hmetadata⟩
    · rintro ⟨hid, htitle, hresolution, -⟩
      exact ⟨⟨hid, htitle⟩, hresolution⟩

theorem checkNodes_eq_nil {seen : List Text} {index : ℕ} {nodes : List NodeDraft} :
    checkNodes seen index nodes = [] ↔
      (∀ node ∈ nodes, node.Complete) ∧ (nodes.map NodeDraft.id).Nodup ∧
        ∀ node ∈ nodes, node.id ∉ seen := by
  induction nodes generalizing seen index with
  | nil => simp [checkNodes]
  | cons node rest ih =>
    rw [checkNodes, List.append_eq_nil_iff, nodeErrors_eq_nil, ih]
    simp only [forall_eq_or_imp, List.map_cons, List.nodup_cons, List.mem_map, List.mem_cons,
      not_or, not_exists, not_and]
    constructor
    · rintro ⟨⟨hid, hnode⟩, hrest, hnodup, hseen⟩
      exact ⟨⟨hnode, hrest⟩, ⟨fun other hother => (hseen other hother).1, hnodup⟩, hid,
        fun other hother => (hseen other hother).2⟩
    · rintro ⟨⟨hnode, hrest⟩, ⟨hhead, hnodup⟩, hid, hseen⟩
      exact ⟨⟨hid, hnode⟩, hrest, hnodup, fun other hother =>
        ⟨hhead other hother, hseen other hother⟩⟩

theorem endpointErrors_eq_nil {nodeIds : List Text} {index : ℕ} {field : DraftErrorField}
    {value : Text} :
    endpointErrors nodeIds index field value = [] ↔ value ≠ [] ∧ value ∈ nodeIds := by
  unfold endpointErrors
  split_ifs with h
  · simp [h]
  · simp [h]

theorem edgeErrors_eq_nil {nodeIds seen : List Text} {labels : List (Text × Text)} {index : ℕ}
    {edge : EdgeDraft} :
    edgeErrors nodeIds seen labels index edge = [] ↔ edge.id ∉ seen ∧ edge.Complete nodeIds ∧
      (edge.fromNodeId, edge.label.trim) ∉ labels := by
  simp only [edgeErrors, List.append_eq_nil_iff, problem_eq_nil, endpointErrors_eq_nil]
  constructor
  · rintro ⟨⟨⟨⟨hid, hlabel⟩, hfrom, hfromNode⟩, hto, htoNode⟩, hlabels⟩
    refine ⟨hid, ⟨hlabel, hfrom, hfromNode, hto, htoNode⟩, ?_⟩
    rw [labelled, if_pos ⟨hfrom, hlabel⟩] at hlabels
    exact fun hmem => hlabels ⟨_, List.mem_singleton_self _, hmem⟩
  · rintro ⟨hid, ⟨hlabel, hfrom, hfromNode, hto, htoNode⟩, hlabels⟩
    refine ⟨⟨⟨⟨hid, hlabel⟩, hfrom, hfromNode⟩, hto, htoNode⟩, ?_⟩
    rw [labelled, if_pos ⟨hfrom, hlabel⟩]
    rintro ⟨l, hl, hmem⟩
    rw [List.mem_singleton.mp hl] at hmem
    exact hlabels hmem

theorem checkEdges_eq_nil {nodeIds seen : List Text} {labels : List (Text × Text)} {index : ℕ}
    {edges : List EdgeDraft} :
    checkEdges nodeIds seen labels index edges = [] ↔
      (∀ edge ∈ edges, edge.Complete nodeIds) ∧
      ((edges.map EdgeDraft.id).Nodup ∧ ∀ edge ∈ edges, edge.id ∉ seen) ∧
      (edges.map fun edge => (edge.fromNodeId, edge.label.trim)).Nodup ∧
        ∀ edge ∈ edges, (edge.fromNodeId, edge.label.trim) ∉ labels := by
  induction edges generalizing seen labels index with
  | nil => simp [checkEdges]
  | cons edge rest ih =>
    rw [checkEdges, List.append_eq_nil_iff, edgeErrors_eq_nil, ih]
    by_cases hedge : edge.Complete nodeIds
    · have hlabelled : labelled edge = [(edge.fromNodeId, edge.label.trim)] :=
        if_pos ⟨hedge.from_picked, hedge.label⟩
      simp only [hlabelled, forall_eq_or_imp, List.map_cons, List.nodup_cons, List.mem_map,
        List.mem_cons, List.singleton_append, not_or, not_exists, not_and]
      constructor
      · rintro ⟨⟨hid, -, hlabel⟩, hrest, ⟨hnodup, hseen⟩, hchoices, hlabels⟩
        exact ⟨⟨hedge, hrest⟩,
          ⟨⟨fun other hother => (hseen other hother).1, hnodup⟩, hid,
            fun other hother => (hseen other hother).2⟩,
          ⟨fun other hother => (hlabels other hother).1, hchoices⟩, hlabel,
            fun other hother => (hlabels other hother).2⟩
      · rintro ⟨⟨-, hrest⟩, ⟨⟨hhead, hnodup⟩, hid, hseen⟩, ⟨hfirst, hchoices⟩, hlabel, hlabels⟩
        exact ⟨⟨hid, hedge, hlabel⟩, hrest,
          ⟨hnodup, fun other hother => ⟨hhead other hother, hseen other hother⟩⟩, hchoices,
          fun other hother => ⟨hfirst other hother, hlabels other hother⟩⟩
    · refine iff_of_false (fun h => hedge h.1.2.1) fun h => hedge (h.1 edge List.mem_cons_self)

/-- A draft without problems is complete, and the other way round. -/
theorem PlaybookDraft.errors_eq_nil {draft : PlaybookDraft} :
    draft.errors = [] ↔ draft.Complete := by
  simp only [errors, List.append_eq_nil_iff, checkNodes_eq_nil, checkEdges_eq_nil, rootErrors,
    problem_eq_nil, List.not_mem_nil, not_false_eq_true, implies_true, and_true, not_and, not_not]
  constructor
  · rintro ⟨⟨⟨hnodes, hnodeIds⟩, hedges, hedgeIds, hchoices⟩, hroot⟩
    exact ⟨hnodes, hnodeIds, hedges, hedgeIds, hchoices, hroot⟩
  · rintro ⟨hnodes, hnodeIds, hedges, hedgeIds, hchoices, hroot⟩
    exact ⟨⟨⟨hnodes, hnodeIds⟩, hedges, hedgeIds, hchoices⟩, hroot⟩

theorem serializePlaybookDraft_eq_ok {draft : PlaybookDraft} {graph : PlaybookGraphInput} :
    serializePlaybookDraft draft = .ok graph ↔ draft.Complete ∧ graph = draft.graph := by
  unfold serializePlaybookDraft
  split_ifs with h
  · rw [PlaybookDraft.errors_eq_nil] at h
    simp [h, eq_comm]
  · rw [PlaybookDraft.errors_eq_nil] at h
    simp [h]

end Interbellum.Frontend
