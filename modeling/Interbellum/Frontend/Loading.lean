import Interbellum.Ecma.Reread
import Interbellum.Frontend.PlaybookEditor
import Interbellum.Http.Encode

/-!
# Loading a version into the form

The editor reads the answer with a version's definition and makes a draft of it. An answer of any
other shape is no definition.

* `readDefinition_toDoc`: what is read of an answer.
* `holds_body`: what is sent is the graph of the draft.
-/

namespace Interbellum.Frontend

open Utf16 (Text)
open JsonText (Doc)
open Ecma (Value)

/-! ## Reading -/

/-- A property of an object. -/
def property (name : String) : Value → Option Value
  | .obj members => (members.find? fun m => m.1 = .ofString name).map Prod.snd
  | _ => none

def readText : Value → Option Text
  | .str t => some t
  | _ => none

/-- A text that may be null or absent. -/
def readOptional : Option Value → Option (Option Text)
  | none | some .null => some none
  | some (.str t) => some (some t)
  | some _ => none

def readNumber : Value → Option Ecma.Number
  | .num n => some n
  | _ => none

def readItems : Value → Option (List Value)
  | .arr items => some items
  | _ => none

def readKind (t : Text) : Option PlaybookNodeKind :=
  if t = .ofString "decision" then some .decision
  else if t = .ofString "terminal" then some .terminal
  else none

def readMetadata : Option Value → Option (Option (List (Text × Value)))
  | none | some .null => some none
  | some (.obj members) => some (some members)
  | some _ => none

def readNode (v : Value) : Option PlaybookNode := do
  let id ← property "id" v >>= readText
  let kind ← property "kind" v >>= readText >>= readKind
  let title ← property "title" v >>= readText
  let description ← property "description" v >>= readText
  let terminalResolution ← readOptional (property "terminal_resolution" v)
  let metadata ← readMetadata (property "metadata" v)
  return { id, kind, title, description, terminalResolution, metadata }

def readEdge (v : Value) : Option PlaybookEdge := do
  let id ← property "id" v >>= readText
  let fromNodeId ← property "from_node_id" v >>= readText
  let toNodeId ← property "to_node_id" v >>= readText
  let label ← property "label" v >>= readText
  let description ← readOptional (property "description" v)
  let sortOrder ← property "sort_order" v >>= readNumber
  return { id, fromNodeId, toNodeId, label, description, sortOrder }

def readDefinition (v : Value) : Option PlaybookGraphInput := do
  let rootNodeId ← readOptional (property "root_node_id" v)
  let nodes ← property "nodes" v >>= readItems >>= List.mapM readNode
  let edges ← property "edges" v >>= readItems >>= List.mapM readEdge
  return { rootNodeId, nodes, edges }

/-- `JSON.stringify(metadata, null, 2)` -/
def metadataText (members : List (Text × Value)) : Text := Ecma.stringify 2 (.obj members)

/-- The draft that the editor makes of an answer. -/
def loadDraft (answer : Text) : Option PlaybookDraft := do
  let v ← Ecma.parseJson answer
  let definition ← readDefinition v
  return draftFromDefinition metadataText definition

/-- The body of a draft `PUT`: `JSON.stringify` of the graph. -/
def PlaybookGraphInput.body (g : PlaybookGraphInput) : Text := (Ecma.jsonStyle 0).print g.toDoc

/-! ## What is read of an answer -/

theorem ofMembers_of_nodup {members : List (Text × Doc)} {set : List (Text × Value)}
    (h : (set.map Prod.fst ++ members.map Prod.fst).Nodup) :
    Ecma.ofMembers set members = set ++ members.map fun m => (m.1, Ecma.ofDoc m.2) := by
  induction members generalizing set with
  | nil => rw [Ecma.ofMembers, List.map_nil, List.append_nil]
  | cons m rest ih =>
    obtain ⟨k, d⟩ := m
    have hk : k ∉ set.map Prod.fst := fun hmem =>
      (List.nodup_append.mp h).2.2 k hmem k List.mem_cons_self rfl
    have hset : Ecma.setMember k (Ecma.ofDoc d) set = set ++ [(k, Ecma.ofDoc d)] := by
      clear ih h
      induction set with
      | nil => rfl
      | cons head rest ih =>
        obtain ⟨l, v⟩ := head
        rw [List.map_cons, List.mem_cons, not_or] at hk
        rw [Ecma.setMember, if_neg (Ne.symm hk.1), ih hk.2, List.cons_append]
    rw [Ecma.ofMembers, hset, ih]
    · simp
    · simpa using h

/-- A property of what is read of an object that names no property twice. -/
theorem property_of_mem {members : List (Text × Doc)} {name : String} {d : Doc}
    (hnodup : (members.map Prod.fst).Nodup) (h : Http.Response.entry name d ∈ members) :
    property name (Ecma.ofDoc (.obj members)) = some (Ecma.ofDoc d) := by
  have hall : Ecma.ofMembers [] members = members.map fun m => (m.1, Ecma.ofDoc m.2) :=
    ofMembers_of_nodup hnodup
  have hnames : ((Ecma.ownKeys (Ecma.ofMembers [] members)).map Prod.fst).Nodup := by
    rw [((Ecma.ownKeys_perm _).map Prod.fst).nodup_iff, hall, List.map_map]
    exact hnodup
  have hmem : (Text.ofString name, Ecma.ofDoc d) ∈ Ecma.ownKeys (Ecma.ofMembers [] members) := by
    rw [(Ecma.ownKeys_perm _).mem_iff, hall]
    exact List.mem_map_of_mem h
  show ((Ecma.ownKeys _).find? _).map Prod.snd = _
  cases hfind : (Ecma.ownKeys (Ecma.ofMembers [] members)).find? fun m => m.1 = .ofString name with
  | none =>
    exact absurd (decide_eq_true rfl) (List.find?_eq_none.mp hfind _ hmem)
  | some m =>
    have hname : m.1 = .ofString name := by simpa using List.find?_some hfind
    obtain rfl := List.inj_on_of_nodup_map hnames (List.mem_of_find?_eq_some hfind) hmem hname
    rfl

theorem property_of_not_mem {members : List (Text × Doc)} {name : String}
    (hnodup : (members.map Prod.fst).Nodup) (h : Text.ofString name ∉ members.map Prod.fst) :
    property name (Ecma.ofDoc (.obj members)) = none := by
  have hall : Ecma.ofMembers [] members = members.map fun m => (m.1, Ecma.ofDoc m.2) :=
    ofMembers_of_nodup hnodup
  show ((Ecma.ownKeys _).find? _).map Prod.snd = none
  rw [Option.map_eq_none_iff, List.find?_eq_none]
  intro m hm hname
  have hmem := (Ecma.ownKeys_perm _).mem_iff.mp hm
  rw [hall] at hmem
  obtain ⟨m', hm', rfl⟩ := List.mem_map.mp hmem
  exact h (of_decide_eq_true hname ▸ List.mem_map_of_mem hm')

section

open Http.Response (Writer entry text textPointer metadataMember)

variable (w : Writer)

def shownMembers (entries : List (String × Json)) : List (Text × Value) :=
  Ecma.ownKeys (Ecma.ofMembers []
    ((entries.insertionSort fun a b => a.1 ≤ b.1).map fun e => entry e.1 (w.json e.2)))

def shownMetadata (metadata : Option (List (String × Json))) : Option (List (Text × Value)) :=
  match metadata.getD [] with
  | [] => none
  | entries => some (shownMembers w entries)

def shownNode (n : Http.Response.Node) (kind : PlaybookNodeKind) : PlaybookNode where
  id := .ofString (w.id n.id)
  kind := kind
  title := .ofString n.title
  description := .ofString n.description
  terminalResolution := n.terminalResolution.map Text.ofString
  metadata := shownMetadata w n.metadata

def shownEdge (e : Http.Response.Edge) : PlaybookEdge where
  id := .ofString (w.id e.id)
  fromNodeId := .ofString (w.id e.fromNodeID)
  toNodeId := .ofString (w.id e.toNodeID)
  label := .ofString e.label
  description := e.description.map Text.ofString
  sortOrder := .ofRat e.sortOrder

theorem readOptional_textPointer (t : Option String) :
    readOptional (some (Ecma.ofDoc (textPointer t))) = some (t.map Text.ofString) := by
  cases t <;> rfl

theorem nodup_node (n : Http.Response.Node) :
    (([entry "id" (text (w.id n.id)), entry "kind" (text n.kind), entry "title" (text n.title),
      entry "description" (text n.description),
      entry "terminal_resolution" (textPointer n.terminalResolution)] ++
        metadataMember w n.metadata).map Prod.fst).Nodup := by
  unfold metadataMember
  split
  · show [Text.ofString "id", .ofString "kind", .ofString "title", .ofString "description",
      .ofString "terminal_resolution"].Nodup
    decide +kernel
  · show [Text.ofString "id", .ofString "kind", .ofString "title", .ofString "description",
      .ofString "terminal_resolution", .ofString "metadata"].Nodup
    decide +kernel

theorem readMetadata_node (n : Http.Response.Node) :
    readMetadata (property "metadata" (Ecma.ofDoc (n.toDoc w))) =
      some (shownMetadata w n.metadata) := by
  have hnodup := nodup_node w n
  rw [Http.Response.Node.toDoc]
  cases hentries : n.metadata.getD [] with
  | nil =>
    have hnone : metadataMember w n.metadata = [] := by rw [metadataMember, hentries]
    have hshown : shownMetadata w n.metadata = none := by rw [shownMetadata, hentries]
    rw [property_of_not_mem hnodup, hshown]
    · rfl
    · rw [hnone]
      show Text.ofString "metadata" ∉ [Text.ofString "id", .ofString "kind", .ofString "title",
        .ofString "description", .ofString "terminal_resolution"]
      decide +kernel
  | cons e rest =>
    have hmember : metadataMember w n.metadata =
        [entry "metadata" (Http.Response.entriesDoc w (e :: rest))] := by
      simp only [metadataMember, hentries]
    have hshown : shownMetadata w n.metadata = some (shownMembers w (e :: rest)) := by
      simp only [shownMetadata, hentries]
    rw [property_of_mem hnodup (d := Http.Response.entriesDoc w (e :: rest)), hshown]
    · rfl
    · rw [hmember]
      exact List.mem_append_right _ (List.mem_singleton_self _)

theorem readNode_toDoc {n : Http.Response.Node} {kind : PlaybookNodeKind}
    (hkind : n.kind = kind.text) :
    readNode (Ecma.ofDoc (n.toDoc w)) = some (shownNode w n kind) := by
  have hnodup := nodup_node w n
  have hread : readKind (.ofString n.kind) = some kind := by
    rw [hkind]
    cases kind <;> decide +kernel
  have hresolution := readOptional_textPointer n.terminalResolution
  rw [readNode, readMetadata_node]
  rw [Http.Response.Node.toDoc, property_of_mem hnodup (d := text (w.id n.id)) (by simp),
    property_of_mem hnodup (d := text n.kind) (by simp),
    property_of_mem hnodup (d := text n.title) (by simp),
    property_of_mem hnodup (d := text n.description) (by simp),
    property_of_mem hnodup (d := textPointer n.terminalResolution) (by simp), hresolution]
  show (readKind (.ofString n.kind) >>= _) = _
  rw [hread]
  rfl

theorem readEdge_toDoc (e : Http.Response.Edge) :
    readEdge (Ecma.ofDoc (e.toDoc w)) = some (shownEdge w e) := by
  have hnodup : ([entry "id" (text (w.id e.id)), entry "from_node_id" (text (w.id e.fromNodeID)),
      entry "to_node_id" (text (w.id e.toNodeID)), entry "label" (text e.label),
      entry "description" (textPointer e.description),
      entry "sort_order" (.num e.sortOrder true)].map Prod.fst).Nodup := by
    show [Text.ofString "id", .ofString "from_node_id", .ofString "to_node_id", .ofString "label",
      .ofString "description", .ofString "sort_order"].Nodup
    decide +kernel
  rw [readEdge, Http.Response.Edge.toDoc, property_of_mem hnodup (d := text (w.id e.id)) (by simp),
    property_of_mem hnodup (d := text (w.id e.fromNodeID)) (by simp),
    property_of_mem hnodup (d := text (w.id e.toNodeID)) (by simp),
    property_of_mem hnodup (d := text e.label) (by simp),
    property_of_mem hnodup (d := textPointer e.description) (by simp),
    property_of_mem hnodup (d := .num e.sortOrder true) (by simp), readOptional_textPointer]
  rfl

theorem mapM_map_some {α β γ : Type} {read : β → Option γ} {f : α → β} {g : α → γ} {items : List α}
    (h : ∀ a ∈ items, read (f a) = some (g a)) :
    (items.map f).mapM read = some (items.map g) := by
  induction items with
  | nil => rfl
  | cons a rest ih =>
    obtain ⟨ha, hrest⟩ := List.forall_mem_cons.mp h
    rw [List.map_cons, List.mapM_cons, ha, ih hrest]
    rfl

theorem ofItems_eq (items : List Doc) : Ecma.ofItems items = items.map Ecma.ofDoc := by
  induction items with
  | nil => rfl
  | cons d rest ih => rw [Ecma.ofItems, ih, List.map_cons]

/-- What is read of an answer is what it shows, when all kinds are known. -/
theorem readDefinition_toDoc {d : Http.Response.PlaybookVersionDefinition}
    {kind : Http.Response.Node → PlaybookNodeKind}
    (hkind : ∀ n ∈ d.nodes, n.kind = (kind n).text) :
    readDefinition (Ecma.ofDoc (d.toDoc w)) = some
      { rootNodeId := d.rootNodeID.map fun id => .ofString (w.id id)
        nodes := d.nodes.map fun n => shownNode w n (kind n)
        edges := d.edges.map (shownEdge w) } := by
  have hnodup : ([entry "id" (text (w.id d.id)), entry "playbook_id" (text (w.id d.playbookID)),
      entry "version" (.num d.version true), entry "status" (text d.status),
      entry "created_at" (text (w.time d.createdAt)),
      entry "published_at" (textPointer (d.publishedAt.map w.time)),
      entry "root_node_id" (textPointer (d.rootNodeID.map w.id)),
      entry "nodes" (.arr (d.nodes.map (Http.Response.Node.toDoc w))),
      entry "edges" (.arr (d.edges.map (Http.Response.Edge.toDoc w)))].map Prod.fst).Nodup := by
    show [Text.ofString "id", .ofString "playbook_id", .ofString "version", .ofString "status",
      .ofString "created_at", .ofString "published_at", .ofString "root_node_id",
      .ofString "nodes", .ofString "edges"].Nodup
    decide +kernel
  have hnodes : ((d.nodes.map (Http.Response.Node.toDoc w)).map Ecma.ofDoc).mapM readNode =
      some (d.nodes.map fun n => shownNode w n (kind n)) := by
    rw [List.map_map]
    exact mapM_map_some fun n hn => readNode_toDoc w (hkind n hn)
  have hedges : ((d.edges.map (Http.Response.Edge.toDoc w)).map Ecma.ofDoc).mapM readEdge =
      some (d.edges.map (shownEdge w)) := by
    rw [List.map_map]
    exact mapM_map_some fun e _ => readEdge_toDoc w e
  rw [readDefinition, Http.Response.PlaybookVersionDefinition.toDoc,
    property_of_mem hnodup (d := textPointer (d.rootNodeID.map w.id)) (by simp),
    property_of_mem hnodup (d := .arr (d.nodes.map (Http.Response.Node.toDoc w))) (by simp),
    property_of_mem hnodup (d := .arr (d.edges.map (Http.Response.Edge.toDoc w))) (by simp),
    readOptional_textPointer]
  show (List.mapM readNode (Ecma.ofItems _) >>= fun nodes =>
    List.mapM readEdge (Ecma.ofItems _) >>= _) = _
  rw [ofItems_eq, ofItems_eq, hnodes, hedges, Option.map_map]
  rfl

end

/-! ## The body of a request -/

theorem precise_parseMetadata {raw : Text} {members : List (Text × Value)}
    (h : parseMetadata raw = .ok (some members)) : (Value.obj members).Precise := by
  have hread : ∃ d, Ecma.ofDoc d = .obj members := by
    unfold parseMetadata at h
    split_ifs at h
    · cases h
    cases hparse : Ecma.parseJson raw.trim with
    | none =>
      rw [hparse] at h
      cases h
    | some v =>
      rw [hparse] at h
      cases v with
      | obj members' =>
        obtain rfl := Option.some.inj (Except.ok.inj h)
        rw [Ecma.parseJson] at hparse
        split at hparse
        · rename_i d rest hd
          split_ifs at hparse
          exact ⟨d, Option.some.inj hparse⟩
        · cases hparse
      | _ => cases h
  obtain ⟨d, hd⟩ := hread
  exact hd ▸ Ecma.precise_ofDoc d

theorem precise_serializeNode (n : NodeDraft) :
    ∀ members ∈ (serializeNode n).metadata, (Value.obj members).Precise := by
  intro members hmembers
  have hmetadata : (parseMetadata n.metadata).toOption.join = some members := hmembers
  cases hparse : parseMetadata n.metadata with
  | error e =>
    rw [hparse] at hmetadata
    cases hmetadata
  | ok value =>
    rw [hparse] at hmetadata
    have hvalue : value = some members := hmetadata
    exact precise_parseMetadata (hvalue ▸ hparse)

theorem printsItems_map {α : Type} {S : JsonText.Style} {doc : α → Doc} {items : List α}
    (h : ∀ a ∈ items, S.Prints (doc a)) : S.PrintsItems (items.map doc) := by
  induction items with
  | nil => exact trivial
  | cons a rest ih =>
    obtain ⟨ha, hrest⟩ := List.forall_mem_cons.mp h
    exact ⟨ha, ih hrest⟩

theorem printsMembers_map {α : Type} {S : JsonText.Style} {name : α → Text} {doc : α → Doc}
    {items : List α} (h : ∀ a ∈ items, S.Prints (doc a)) :
    S.PrintsMembers (items.map fun a => (name a, doc a)) := by
  induction items with
  | nil => exact trivial
  | cons a rest ih =>
    obtain ⟨ha, hrest⟩ := List.forall_mem_cons.mp h
    exact ⟨ha, ih hrest⟩

theorem prints_textDoc (S : JsonText.Style) (t : Option Text) : S.Prints (textDoc t) := by
  cases t <;> exact trivial

theorem prints_node (indent : ℕ) (n : NodeDraft) :
    (Ecma.jsonStyle indent).Prints (serializeNode n).toDoc := by
  refine ⟨trivial, trivial, trivial, trivial, prints_textDoc _ _, ?_, trivial⟩
  cases hmetadata : (serializeNode n).metadata with
  | none => exact trivial
  | some members => exact (precise_serializeNode n members hmetadata).prints

theorem prints_edge (indent : ℕ) (e : EdgeDraft) :
    (Ecma.jsonStyle indent).Prints (serializeEdge e).toDoc := by
  refine ⟨trivial, trivial, trivial, trivial, prints_textDoc _ _, ?_, trivial⟩
  show (Ecma.jsonStyle indent).Prints (parseSortOrder e.sortOrder).toDoc
  rw [parseSortOrder, Ecma.parseInt]
  cases Ecma.leadingInteger e.sortOrder with
  | none => exact Ecma.prints_toDoc (Ecma.ofRat_precise _)
  | some n => exact Ecma.prints_toDoc (Ecma.ofRat_precise _)

/-- The body of a request is the graph of the draft. -/
theorem holds_body (d : PlaybookDraft) : Http.Holds d.graph.body d.graph.toDoc := by
  refine Ecma.holds_print ⟨prints_textDoc _ _, ?_, ?_, trivial⟩
  · show JsonText.Style.PrintsItems _ ((d.nodes.map serializeNode).map PlaybookNode.toDoc)
    rw [List.map_map]
    exact printsItems_map fun n _ => prints_node 0 n
  · show JsonText.Style.PrintsItems _ ((d.edges.map serializeEdge).map PlaybookEdge.toDoc)
    rw [List.map_map]
    exact printsItems_map fun e _ => prints_edge 0 e

end Interbellum.Frontend
