import Interbellum.Frontend.Loading
import Interbellum.Guarantees.DraftForm
import Interbellum.Guarantees.Reload
import Interbellum.Server.Writes

/-!
# What is left of a graph that is loaded and saved

The answer that shows a version is made a draft, and the draft is what the server reads. Texts are
trimmed on the way and the numbers in metadata become doubles. `Graph.resaved` is the graph that
comes out.

* `loadDraft_answer`: which draft the form has.
* `nodes_received_reopened`, `edges_received_reopened`: what the server stores of it.
-/

namespace Interbellum

open Frontend (PlaybookDraft NodeDraft EdgeDraft PlaybookNodeKind PlaybookGraphInput serializeNode
  serializeEdge parseMetadata parseSortOrder serializePlaybookDraft loadDraft loadedNode loadedEdge
  draftFromDefinition metadataText shownNode shownEdge shownMembers shownMetadata)
open PlaybookRepository (storedNode sortNodes sortEdgeRows)
open Http.Response (Writer entriesDoc toDefinition toMap)
open Utf16 (Text)
open JsonText (Doc)
open Ecma (Value)

variable {parse : String → Option UUID} {w : Writer}

/-! ## What is stored again -/

/-- Numbers become doubles; what is no object with members becomes nothing. -/
def resavedMetadata : Option Json → Option Json
  | some (.obj (m :: members)) => some (Json.obj (m :: members)).rounded.jsonb
  | _ => none

def Node.resaved (n : Node) : Node where
  id := n.id
  kind := n.kind
  title := Text.trimmed n.title
  description := Text.trimmed n.description
  terminalResolution := n.terminalResolution.map Text.trimmed
  metadata := resavedMetadata n.metadata

def Edge.resaved (e : Edge) : Edge where
  id := e.id
  fromNodeID := e.fromNodeID
  toNodeID := e.toNodeID
  label := Text.trimmed e.label
  description := (e.description.map Text.trimmed).filter fun t => t ≠ ""
  sortOrder := e.sortOrder

/-- The graph after it was loaded into the form and saved from it. -/
def Graph.resaved (g : Graph) : Graph where
  rootNodeID := g.rootNodeID
  nodes := g.nodes.map Node.resaved
  edges := g.edges.map Edge.resaved

/-- What the form, or the server after it, asks of a graph and a stored graph may not have. -/
structure Graph.Saveable (g : Graph) : Prop where
  nodes : ∀ n ∈ g.nodes, n.id ≠ UUID.nil ∧ n.title ≠ "" ∧ n.terminalResolution ≠ some ""
  edges : ∀ e ∈ g.edges, e.id ≠ UUID.nil ∧ e.label ≠ ""
  choices : (g.edges.map fun e => (e.fromNodeID, e.label)).Nodup
  nesting : ∀ n ∈ g.nodes, ∀ j ∈ n.metadata, j.depth ≤ 9997

theorem Graph.saveable_resaved_iff {g : Graph} :
    g.resaved.Saveable ↔
      (∀ n ∈ g.nodes, n.id ≠ UUID.nil ∧ n.resaved.title ≠ "" ∧
        n.resaved.terminalResolution ≠ some "") ∧
      (∀ e ∈ g.edges, e.id ≠ UUID.nil ∧ e.resaved.label ≠ "") ∧
      (g.resaved.edges.map fun e => (e.fromNodeID, e.label)).Nodup ∧
      ∀ n ∈ g.nodes, ∀ j ∈ n.resaved.metadata, j.depth ≤ 9997 := by
  constructor
  · rintro ⟨hnodes, hedges, hchoices, hnesting⟩
    rw [Graph.resaved, List.forall_mem_map] at hnodes hedges hnesting
    exact ⟨hnodes, hedges, hchoices, hnesting⟩
  · rintro ⟨hnodes, hedges, hchoices, hnesting⟩
    refine ⟨?_, ?_, hchoices, ?_⟩
    · rw [Graph.resaved, List.forall_mem_map]
      exact hnodes
    · rw [Graph.resaved, List.forall_mem_map]
      exact hedges
    · rw [Graph.resaved, List.forall_mem_map]
      exact hnesting

/-! ## Metadata -/

/-- What the form holds of the metadata that it is shown is the same value. -/
theorem parseMetadata_metadataText {shown : List (Text × Value)} (hprecise : (Value.obj shown).Precise)
    (hunicode : (Value.obj shown).toDoc.IsUnicode) :
    ∃ members, parseMetadata (metadataText shown) = .ok (some members) ∧ Ecma.Named members ∧
      (Value.obj members).Precise ∧ (Http.toJson (Value.obj members).toDoc).Distinct ∧
        (Http.toJson (Value.obj members).toDoc).jsonb = (Http.toJson (Value.obj shown).toDoc).jsonb := by
  have hread : Ecma.ofDoc (Value.obj shown).toDoc =
      .obj (Ecma.ownKeys (Ecma.ofMembers [] (Ecma.memberDocs shown))) := rfl
  refine ⟨Ecma.ownKeys (Ecma.ofMembers [] (Ecma.memberDocs shown)), ?_,
    Ecma.named_ownKeys hunicode, hread ▸ Ecma.precise_ofDoc _, hread ▸ Ecma.distinct_ofDoc hunicode, ?_⟩
  · have htrim : (metadataText shown).trim = metadataText shown := Ecma.trim_print_obj 2 _
    have hparse : Ecma.parseJson (metadataText shown) = some (Ecma.ofDoc (Value.obj shown).toDoc) :=
      Ecma.parseJson_of_holds (Ecma.holds_print hprecise.prints)
    have hne : metadataText shown ≠ [] := by
      intro hempty
      rw [hempty] at hparse
      cases hparse
    rw [parseMetadata, htrim, if_neg hne, hparse, hread]
  · rw [← hread, Ecma.jsonb_ofDoc hunicode, Ecma.rounded_toJson hprecise]

theorem rawEntries_eq {members : List (Text × Value)} (h : Ecma.Named members) :
    rawEntries members = members.map fun m => (m.1.toUnicode, m.2.toDoc) := by
  have hnames : (members.map fun m => m.1.toUnicode).Nodup := by
    have heq : (Http.toJsonMembers (Ecma.memberDocs members)).map Prod.fst =
        members.map fun m => m.1.toUnicode := by
      rw [Ecma.toJsonMembers_memberDocs, List.map_map]
      exact List.map_congr_left fun m hm => Ecma.jsonbText_eq (h.unicode m hm)
    exact heq ▸ h.nodup
  rw [rawEntries, memberDocs_eq_map, List.foldl_map]
  exact @Http.Response.foldl_setEntry _ _ (fun m : Text × Value => m.1.toUnicode)
    (fun m => m.2.toDoc) members [] (by simpa using hnames)

/-- What is sent of an object is the object, up to the order of its members. -/
theorem marshalObject_rawEntries {members : List (Text × Value)} (h : Ecma.Named members)
    (hne : members ≠ []) : ∃ sent, Http.marshalObject (some (rawEntries members)) = some (.obj sent) ∧
      sent.Perm (Http.toJsonMembers (Ecma.memberDocs members)) := by
  have hentries := rawEntries_eq h
  cases hraw : rawEntries members with
  | nil =>
    rw [hraw] at hentries
    exact absurd (List.map_eq_nil_iff.mp hentries.symm) hne
  | cons e rest =>
    refine ⟨_, rfl, ?_⟩
    have hmap : Http.toJsonMembers (Ecma.memberDocs members) =
        (rawEntries members).map fun e => (e.1, Http.toJson e.2) := by
      rw [hentries, Ecma.toJsonMembers_memberDocs, List.map_map]
      exact List.map_congr_left fun m hm => by rw [Ecma.jsonbText_eq (h.unicode m hm)]; rfl
    rw [hmap, hraw]
    exact (List.perm_insertionSort _ _).map _

theorem same_entriesDoc (hw : w.Faithful parse) {members : List (String × Json)}
    (hstorable : (Json.obj members).storable = true) :
    (Http.toJson (entriesDoc w members)).Same (.obj members) := by
  have hvalues := (storableMembers_iff members).mp hstorable
  have hdoc : ∀ entries : List (String × Json), Http.toJsonMembers
      (entries.map fun e => Http.Response.entry e.1 (w.json e.2)) =
        entries.map fun e => (e.1, Http.toJson (w.json e.2)) := by
    intro entries
    induction entries with
    | nil => rfl
    | cons e rest ih =>
      rw [List.map_cons, List.map_cons, Http.Response.entry, Http.toJsonMembers, ih,
        Ecma.jsonbText_eq (Text.isUnicode_ofString _), Text.toUnicode_ofString]
  rw [Json.same_iff, entriesDoc, Http.toJson, hdoc, Json.jsonb, Json.jsonb]
  congr 1
  refine Json.jsonbMembers_eq_iff.mpr fun k => ?_
  rw [Json.last_map k (fun j => Http.toJson (w.json j)), Json.last_sorted]
  cases hlast : Json.last k members with
  | none => rfl
  | some j =>
    rw [Option.map_some, Option.map_some, Option.map_some,
      (hw.json_same j (hvalues _ (Json.mem_of_last hlast)).2).jsonb_eq]

theorem unicode_entriesDoc (hw : w.Faithful parse) (members : List (String × Json)) :
    (entriesDoc w members).IsUnicode := by
  have hentries : ∀ entries : List (String × Json), JsonText.UnicodeMembers
      (entries.map fun e => Http.Response.entry e.1 (w.json e.2)) := by
    intro entries
    induction entries with
    | nil => exact trivial
    | cons e rest ih => exact ⟨Text.isUnicode_ofString _, hw.json_unicode _, ih⟩
  exact hentries _

/-- The metadata that is sent of a node that was loaded. -/
def sentMetadata (value : Option (List (Text × Value))) : Option Json :=
  Http.marshalObject (value.map rawEntries)

/-- What the form holds of metadata, and what it sends of it. -/
structure Reopens (metadata : Option Json) (value : Option (List (Text × Value))) : Prop where
  precise : ∀ members ∈ value, (Value.obj members).Precise
  sent : (sentMetadata value).map Json.jsonb = resavedMetadata metadata
  distinct : ∀ j ∈ sentMetadata value, j.Distinct
  nesting : (∀ members ∈ value, JsonText.depthMembers (Ecma.memberDocs members) ≤ 9996) ↔
    ∀ j ∈ resavedMetadata metadata, j.depth ≤ 9997

theorem metadata_reopened_obj (hw : w.Faithful parse) {m : String × Json}
    {rest : List (String × Json)} (hstorable : (Json.obj (m :: rest)).storable = true) :
    ∃ value, parseMetadata (metadataText (shownMembers w (m :: rest))) = .ok value ∧
      Reopens (some (.obj (m :: rest))) value := by
  have hread : Value.obj (shownMembers w (m :: rest)) = Ecma.ofDoc (entriesDoc w (m :: rest)) := rfl
  have hunicode := unicode_entriesDoc hw (m :: rest)
  have hprecise : (Value.obj (shownMembers w (m :: rest))).Precise := hread ▸ Ecma.precise_ofDoc _
  obtain ⟨members, hparse, hnamed, hprecise', hdistinct, hjsonb⟩ :=
    parseMetadata_metadataText hprecise (hread ▸ Ecma.unicode_ofDoc hunicode)
  have hrounded : (Http.toJson (Value.obj members).toDoc).jsonb =
      (Json.obj (m :: rest)).rounded.jsonb := by
    rw [hjsonb, hread, Ecma.jsonb_ofDoc hunicode, (same_entriesDoc hw hstorable).rounded.jsonb_eq]
  have hne : members ≠ [] := by
    rintro rfl
    have hempty : (Json.obj []).Same (Json.obj (m :: rest)).rounded := Json.same_iff.mpr hrounded
    rw [Json.rounded, Json.roundedMembers_eq] at hempty
    exact absurd (Json.same_empty hempty) (List.cons_ne_nil _ _)
  obtain ⟨sent, hsent, hperm⟩ := marshalObject_rawEntries hnamed hne
  have hsame : (Json.obj sent).jsonb = (Http.toJson (Value.obj members).toDoc).jsonb :=
    congrArg Json.obj (Json.jsonbMembers_eq_iff.mpr fun k => by
      rw [Json.last_perm hdistinct.1 hperm k])
  refine ⟨some members, hparse, ?_, ?_, ?_, ?_⟩
  · intro members' hmembers'
    obtain rfl := Option.some.inj hmembers'
    exact hprecise'
  · show (Http.marshalObject (some (rawEntries members))).map Json.jsonb = some _
    rw [hsent, Option.map_some, hsame, hrounded]
  · intro j hj
    obtain rfl := Option.some.inj (hsent.symm.trans hj)
    refine ⟨((hperm.map Prod.fst).nodup_iff).mpr hdistinct.1, ?_⟩
    rw [Json.distinctMembers_iff]
    exact fun m hm => (Json.distinctMembers_iff _).mp hdistinct.2 m (hperm.mem_iff.mp hm)
  · have hdepth : (Json.obj (m :: rest)).rounded.jsonb.depth =
        JsonText.depthMembers (Ecma.memberDocs members) + 1 := by
      rw [← hrounded, Json.depth_jsonb hdistinct, Http.depth_toJson]
      rfl
    simp only [resavedMetadata, Option.mem_def, Option.some.injEq, forall_eq', hdepth]
    omega

theorem metadata_cases (metadata : Option Json) :
    (∃ m rest, metadata = some (.obj (m :: rest))) ∨
      shownMetadata w (metadata.bind toMap) = none ∧ resavedMetadata metadata = none := by
  cases metadata with
  | none => exact .inr ⟨rfl, rfl⟩
  | some j =>
    cases j with
    | obj members =>
      cases members with
      | nil => exact .inr ⟨rfl, rfl⟩
      | cons m rest => exact .inl ⟨m, rest, rfl⟩
    | _ => exact .inr ⟨rfl, rfl⟩

theorem metadata_reopened (hw : w.Faithful parse) {metadata : Option Json}
    (hstored : metadata.map Json.jsonb = metadata) (hstorable : storableJson metadata = true) :
    ∃ value, parseMetadata (((shownMetadata w (metadata.bind toMap)).map metadataText).getD []) =
      .ok value ∧ Reopens metadata value := by
  rcases metadata_cases (w := w) metadata with ⟨m, rest, rfl⟩ | ⟨hshown, hresaved⟩
  · have hnodup : ((m :: rest).map Prod.fst).Nodup := by
      have hdistinct := Json.distinct_jsonb (.obj (m :: rest))
      rw [Option.some.inj hstored] at hdistinct
      exact hdistinct.1
    have hshown : shownMetadata w ((some (Json.obj (m :: rest))).bind toMap) =
        some (shownMembers w (m :: rest)) := by
      rw [Option.bind_some, Http.Response.toMap_obj hnodup]
      rfl
    rw [hshown]
    exact metadata_reopened_obj hw hstorable
  · rw [hshown]
    exact ⟨none, rfl, nofun, hresaved.symm, nofun, hresaved ▸ iff_of_true nofun nofun⟩

/-! ## Nodes -/

def shownKind (n : Http.Response.Node) : PlaybookNodeKind :=
  if n.kind = "terminal" then .terminal else .decision

def reopenedNode (w : Writer) (n : Node) : NodeDraft :=
  loadedNode metadataText
    (shownNode w (Http.Response.toNode n) (shownKind (Http.Response.toNode n)))

/-- What holds of a node that is stored. -/
structure Node.Kept (n : Node) : Prop where
  kind : n.kind = .terminal ∧ n.terminalResolution.isSome ∨
    n.kind = .decision ∧ n.terminalResolution = none
  stored : storedNode n = n
  storable : storableNode n = true

variable {n : Node}

theorem Node.Kept.kind_shown (h : n.Kept) :
    n.kind.text = (shownKind (Http.Response.toNode n)).text ∧
      (shownKind (Http.Response.toNode n) = .terminal ↔ n.kind = .terminal) := by
  show _ = (if n.kind.text = "terminal" then PlaybookNodeKind.terminal else .decision).text ∧
    ((if n.kind.text = "terminal" then PlaybookNodeKind.terminal else .decision) = .terminal ↔ _)
  rcases h.kind with ⟨hkind, -⟩ | ⟨hkind, -⟩
  · rw [hkind]
    decide
  · rw [hkind]
    decide

theorem Node.Kept.metadata (hw : w.Faithful parse) (h : n.Kept) :
    ∃ value, parseMetadata (reopenedNode w n).metadata = .ok value ∧ Reopens n.metadata value := by
  have hstorable := h.storable
  simp only [storableNode, Bool.and_eq_true] at hstorable
  exact metadata_reopened hw (congrArg Node.metadata h.stored) hstorable.2

theorem Node.Kept.resolution_iff (h : n.Kept) :
    ((reopenedNode w n).kind = .terminal → (reopenedNode w n).terminalResolution.trim ≠ []) ↔
      n.resaved.terminalResolution ≠ some "" := by
  show (shownKind (Http.Response.toNode n) = .terminal →
    ((n.terminalResolution.map Text.ofString).getD []).trim ≠ []) ↔
      n.terminalResolution.map Text.trimmed ≠ some ""
  rw [h.kind_shown.2]
  rcases h.kind with ⟨hkind, hsome⟩ | ⟨hkind, hnone⟩
  · obtain ⟨t, ht⟩ := Option.isSome_iff_exists.mp hsome
    simp [hkind, ht, Text.trimmed_eq_empty]
  · simp [hkind, hnone]

theorem Node.Kept.complete_iff (hw : w.Faithful parse) (h : n.Kept) :
    (reopenedNode w n).Complete ↔
      n.resaved.title ≠ "" ∧ n.resaved.terminalResolution ≠ some "" := by
  have htitle : (reopenedNode w n).title.trim ≠ [] ↔ n.resaved.title ≠ "" :=
    Text.trimmed_eq_empty.symm.not
  obtain ⟨value, hvalue, -⟩ := h.metadata hw
  rw [← htitle, ← h.resolution_iff (w := w)]
  exact ⟨fun hcomplete => ⟨hcomplete.title, hcomplete.resolution⟩,
    fun hboth => ⟨hboth.1, hboth.2, value, hvalue⟩⟩

/-- What is sent of the node, and what is stored of that. -/
theorem Node.Kept.received (hw : w.Faithful parse) (h : n.Kept) :
    storedNode (receivedNode parse (reopenedNode w n)) = n.resaved ∧
      (∀ j ∈ (receivedNode parse (reopenedNode w n)).metadata, j.Distinct) ∧
      (∀ members ∈ (serializeNode (reopenedNode w n)).metadata, (Value.obj members).Precise) ∧
      ((∀ members ∈ (serializeNode (reopenedNode w n)).metadata,
          JsonText.depthMembers (Ecma.memberDocs members) ≤ 9996) ↔
        ∀ j ∈ n.resaved.metadata, j.depth ≤ 9997) := by
  obtain ⟨value, hvalue, hreopens⟩ := h.metadata hw
  have hmetadata : (serializeNode (reopenedNode w n)).metadata = value := by
    rw [serializeNode, hvalue]
    cases value <;> rfl
  have hsent : (receivedNode parse (reopenedNode w n)).metadata = sentMetadata value := by
    rw [← hmetadata]
    rfl
  have hid : (receivedNode parse (reopenedNode w n)).id = n.id := by
    show (parse (Text.ofString (w.id n.id)).toUnicode).getD UUID.nil = n.id
    rw [Text.toUnicode_ofString, hw.id, Option.getD_some]
  have hkind : (receivedNode parse (reopenedNode w n)).kind = n.kind := by
    rw [kind_receivedNode]
    have hiff : (reopenedNode w n).kind = .terminal ↔ n.kind = .terminal := h.kind_shown.2
    rcases h.kind with ⟨hkind, -⟩ | ⟨hkind, -⟩
    · rw [if_pos (hiff.mpr hkind), hkind]
    · rw [if_neg (hiff.not.mpr (by rw [hkind]; decide)), hkind]
  have hresolution : (receivedNode parse (reopenedNode w n)).terminalResolution =
      n.terminalResolution.map Text.trimmed := by
    show (if shownKind (Http.Response.toNode n) = .terminal then
      some (((n.terminalResolution.map Text.ofString).getD []).trim) else none).map Text.toUnicode = _
    simp only [h.kind_shown.2]
    rcases h.kind with ⟨hkind, hsome⟩ | ⟨hkind, hnone⟩
    · obtain ⟨t, ht⟩ := Option.isSome_iff_exists.mp hsome
      rw [if_pos hkind, ht]
      rfl
    · rw [if_neg (by rw [hkind]; decide), hnone]
      rfl
  refine ⟨?_, ?_, ?_, ?_⟩
  · rw [storedNode, hsent, hreopens.sent, Node.resaved, ← hid, ← hkind, ← hresolution]
    rfl
  · rw [hsent]
    exact hreopens.distinct
  · rw [hmetadata]
    exact hreopens.precise
  · rw [hmetadata]
    exact hreopens.nesting

/-! ## Edges -/

def reopenedEdge (w : Writer) (e : Edge) : EdgeDraft :=
  loadedEdge (shownEdge w (Http.Response.toEdge e))

variable {e : Edge}

/-- A sort order that fits its column is read as it was. -/
theorem order_reopened (hrange : -2147483648 ≤ e.sortOrder ∧ e.sortOrder ≤ 2147483647) :
    OrderFits (reopenedEdge w e).sortOrder ∧ storedOrder (reopenedEdge w e).sortOrder = e.sortOrder := by
  have hparse : parseSortOrder (reopenedEdge w e).sortOrder = .ofRat e.sortOrder :=
    parseSortOrder_text rfl hrange.1 hrange.2
  have hsmall : |e.sortOrder| < 2 ^ 52 := abs_lt.mpr ⟨by omega, by omega⟩
  obtain ⟨x, hx, hshown⟩ := Ecma.ofRat_of_small hsmall
  constructor
  · rw [parseSortOrder_eq, hx] at hparse
    rw [orderFits_iff, (Ecma.shown_ofRat_int hparse hsmall).mp hshown]
    exact .inl hrange
  · rw [storedOrder, hparse, hx]
    show x.shown.num = e.sortOrder
    rw [hshown, Rat.num_intCast]

theorem storable_edge_range (h : storableEdge e = true) :
    -2147483648 ≤ e.sortOrder ∧ e.sortOrder ≤ 2147483647 := by
  simp only [storableEdge, int4, Bool.and_eq_true, decide_eq_true_eq] at h
  exact h.1.1

/-- What is stored of the edge that is sent. -/
theorem receivedEdge_reopenedEdge (hw : w.Faithful parse) (h : storableEdge e = true) :
    receivedEdge parse (reopenedEdge w e) = e.resaved := by
  have hid : ∀ id, (parse (Text.ofString (w.id id)).toUnicode).getD UUID.nil = id := fun id => by
    rw [Text.toUnicode_ofString, hw.id, Option.getD_some]
  have hdescription : (if ((e.description.map Text.ofString).getD []).trim = [] then none
      else some ((e.description.map Text.ofString).getD []).trim).map Text.toUnicode =
        (e.description.map Text.trimmed).filter fun t => t ≠ "" := by
    cases e.description with
    | none => rfl
    | some t =>
      rw [Option.map_some, Option.getD_some, Option.map_some, Option.filter_some]
      by_cases hempty : (Text.ofString t).trim = []
      · rw [if_pos hempty, if_neg (by simpa using Text.trimmed_eq_empty.mpr hempty)]
        rfl
      · rw [if_neg hempty, if_pos (by simpa using Text.trimmed_eq_empty.not.mpr hempty)]
        rfl
  have horder := (order_reopened (w := w) (storable_edge_range h)).2
  show Edge.mk ((parse (Text.ofString (w.id e.id)).toUnicode).getD UUID.nil)
    ((parse (Text.ofString (w.id e.fromNodeID)).toUnicode).getD UUID.nil)
    ((parse (Text.ofString (w.id e.toNodeID)).toUnicode).getD UUID.nil) (Text.trimmed e.label) _ _ = _
  rw [hid, hid, hid, horder]
  exact congrArg (fun d => Edge.mk _ _ _ _ d _) hdescription

/-! ## The graph -/

/-- The draft that is made of a graph. -/
def reopened (w : Writer) (g : Graph) : PlaybookDraft where
  rootNodeId := (g.rootNodeID.map fun id => Text.ofString (w.id id)).getD []
  nodes := g.nodes.map (reopenedNode w)
  edges := g.edges.map (reopenedEdge w)

theorem loadDraft_answer {v : Version} {g : Graph} (hkept : ∀ n ∈ g.nodes, n.Kept) {answer : Text}
    (hanswer : Http.Holds answer ((toDefinition ⟨v, g⟩).toDoc w)) :
    loadDraft answer = some (reopened w g) := by
  have hkind : ∀ n ∈ (toDefinition ⟨v, g⟩).nodes, n.kind = (shownKind n).text := by
    intro n hn
    obtain ⟨n', hn', rfl⟩ := List.mem_map.mp hn
    exact (hkept n' hn').kind_shown.1
  rw [loadDraft, Ecma.parseJson_of_holds hanswer]
  show (Frontend.readDefinition _ >>= _) = _
  rw [Frontend.readDefinition_toDoc w hkind]
  show some (draftFromDefinition _ _) = _
  rw [draftFromDefinition, reopened, toDefinition]
  simp only [List.map_map]
  rfl

/-- What holds of the graph of a version. -/
structure Graph.Kept (g : Graph) : Prop where
  nodes : ∀ n ∈ g.nodes, n.Kept
  edges : ∀ e ∈ g.edges, storableEdge e = true
  node_ids : (g.nodes.map Node.id).Nodup
  edge_ids : (g.edges.map Edge.id).Nodup
  closed : g.Closed

theorem Reachable.graph_kept {s : Store} (h : Reachable s) {v : Version} (hv : v ∈ s.versions) :
    (s.graphOf v).Kept := by
  refine ⟨fun n hn => ?_, fun e he => ?_, h.valid.node_ids_nodup v, h.valid.edge_ids_nodup v,
    h.valid.closed hv⟩
  · obtain ⟨r, hr, -, rfl⟩ := mem_nodesOf.mp (mem_graphOf_nodes.mp hn)
    exact ⟨h.valid.node_check r hr, h.stored r hr, h.storable.nodes r hr⟩
  · obtain ⟨r, hr, -, rfl⟩ := mem_edgesOf.mp (mem_graphOf_edges.mp he)
    exact h.storable.edges r hr

variable {g : Graph}

/-- Texts of different ids are different. -/
theorem idText_inj (hw : w.Faithful parse) {id id' : UUID}
    (h : Text.ofString (w.id id) = Text.ofString (w.id id')) : id = id' := by
  have htext := congrArg Text.toUnicode h
  rw [Text.toUnicode_ofString, Text.toUnicode_ofString] at htext
  exact Option.some.inj ((hw.id id).symm.trans (htext ▸ hw.id id'))

theorem idText_ne_nil (hw : w.Faithful parse) (id : UUID) :
    Text.ofString (w.id id) ≠ [] := by
  intro h
  have htext := congrArg Text.toUnicode h
  rw [Text.toUnicode_ofString] at htext
  have hid := hw.id id
  rw [htext] at hid
  exact absurd (hid.symm.trans hw.no_id) (Option.some_ne_none _)

theorem ofString_inj {a b : String} (h : Text.ofString a = Text.ofString b) : a = b := by
  rw [← Text.toUnicode_ofString a, h, Text.toUnicode_ofString]

theorem nodeIds_reopened : (reopened w g).nodeIds =
    (g.nodes.map Node.id).map fun id => Text.ofString (w.id id) := by
  rw [PlaybookDraft.nodeIds, reopened, List.map_map, List.map_map]
  rfl

theorem mem_nodeIds_reopened {id : UUID} (h : ∃ n ∈ g.nodes, n.id = id) :
    Text.ofString (w.id id) ∈ (reopened w g).nodeIds := by
  rw [nodeIds_reopened]
  exact List.mem_map_of_mem (List.mem_map.mpr h)

theorem label_reopened (e : Edge) :
    (reopenedEdge w e).label.trim = Text.ofString e.resaved.label :=
  (Text.ofString_trimmed e.label).symm

theorem choices_reopened :
    ((reopened w g).edges.map fun e => (e.fromNodeId, e.label.trim)) =
      (g.resaved.edges.map fun e => (e.fromNodeID, e.label)).map
        fun c => (Text.ofString (w.id c.1), Text.ofString c.2) := by
  rw [reopened, Graph.resaved, List.map_map, List.map_map, List.map_map]
  refine List.map_congr_left fun e _ => ?_
  simp only [Function.comp_apply, label_reopened]
  rfl

theorem idsParse_reopened (hw : w.Faithful parse) : IdsParse parse (reopened w g) := by
  constructor
  · intro n hn
    obtain ⟨n', -, rfl⟩ := List.mem_map.mp hn
    refine ⟨n'.id, ?_⟩
    show parse (Text.ofString (w.id n'.id)).toUnicode = _
    rw [Text.toUnicode_ofString, hw.id]
  · intro e he
    obtain ⟨e', -, rfl⟩ := List.mem_map.mp he
    refine ⟨e'.id, ?_⟩
    show parse (Text.ofString (w.id e'.id)).toUnicode = _
    rw [Text.toUnicode_ofString, hw.id]

/-- When the form sends the draft. -/
theorem complete_reopened_iff (hw : w.Faithful parse) (h : g.Kept) :
    (reopened w g).Complete ↔
      (∀ n ∈ g.nodes, n.resaved.title ≠ "" ∧ n.resaved.terminalResolution ≠ some "") ∧
      (∀ e ∈ g.edges, e.resaved.label ≠ "") ∧
      (g.resaved.edges.map fun e => (e.fromNodeID, e.label)).Nodup := by
  have hids : Function.Injective fun id => Text.ofString (w.id id) := fun _ _ => idText_inj hw
  have hlabel : ∀ e : Edge, (reopenedEdge w e).label.trim ≠ [] ↔ e.resaved.label ≠ "" :=
    fun e => (Text.trimmed_eq_empty (s := e.label)).symm.not
  constructor
  · intro hd
    refine ⟨fun n hn => ?_, fun e he => ?_, ?_⟩
    · exact ((h.nodes n hn).complete_iff hw).mp (hd.nodes _ (List.mem_map_of_mem hn))
    · exact (hlabel e).mp (hd.edges _ (List.mem_map_of_mem he)).label
    · have hchoices := hd.choices
      rw [choices_reopened] at hchoices
      exact hchoices.of_map
  · rintro ⟨hnodes, hedges, hchoices⟩
    refine ⟨List.forall_mem_map.mpr fun n hn => ((h.nodes n hn).complete_iff hw).mpr (hnodes n hn),
      ?_, List.forall_mem_map.mpr fun e he => ?_, ?_, ?_, ?_⟩
    · rw [nodeIds_reopened]
      exact h.node_ids.map hids
    · obtain ⟨hfrom, hto⟩ := h.closed.2 e he
      exact ⟨(hlabel e).mpr (hedges e he), idText_ne_nil hw _, mem_nodeIds_reopened hfrom,
        idText_ne_nil hw _, mem_nodeIds_reopened hto⟩
    · have hmap : (reopened w g).edges.map EdgeDraft.id =
          (g.edges.map Edge.id).map fun id => Text.ofString (w.id id) := by
        rw [reopened, List.map_map, List.map_map]
        rfl
      rw [hmap]
      exact h.edge_ids.map hids
    · rw [choices_reopened]
      refine hchoices.map fun c c' heq => ?_
      obtain ⟨hfrom, hlabels⟩ := Prod.mk.inj heq
      exact Prod.ext (idText_inj hw hfrom) (ofString_inj hlabels)
    · intro hroot
      cases hid : g.rootNodeID with
      | none =>
        rw [reopened, hid] at hroot
        exact absurd rfl hroot
      | some root =>
        show (g.rootNodeID.map fun id => Text.ofString (w.id id)).getD [] ∈ _
        rw [hid]
        exact mem_nodeIds_reopened (h.closed.1 root hid)

/-! ## What the server makes of it -/

theorem nodes_received_reopened (hw : w.Faithful parse) (h : g.Kept) :
    (received parse (reopened w g)).toGraph.nodes.map storedNode = g.resaved.nodes := by
  rw [nodes_received, reopened, Graph.resaved, List.map_map, List.map_map]
  exact List.map_congr_left fun n hn => ((h.nodes n hn).received hw).1

theorem edges_received_reopened (hw : w.Faithful parse) (h : g.Kept) :
    (received parse (reopened w g)).toGraph.edges = g.resaved.edges := by
  rw [edges_received, reopened, Graph.resaved, List.map_map]
  exact List.map_congr_left fun e he => receivedEdge_reopenedEdge hw (h.edges e he)

theorem root_received_reopened (hw : w.Faithful parse) :
    (received parse (reopened w g)).toGraph.rootNodeID = g.rootNodeID := by
  show (if (reopened w g).rootNodeId = [] then none else some (reopened w g).rootNodeId).bind
    (fun root => parse root.toUnicode) = g.rootNodeID
  rw [reopened]
  cases g.rootNodeID with
  | none => rfl
  | some root =>
    show (if Text.ofString (w.id root) = [] then none else some (Text.ofString (w.id root))).bind
      (fun root => parse root.toUnicode) = some root
    rw [if_neg (idText_ne_nil hw root), Option.bind_some, Text.toUnicode_ofString, hw.id]

/-! Rounding keeps what can be stored. -/

theorem storable_number (n : Ecma.Number) : (Http.toJson n.toDoc).storable = true := by
  cases n with
  | infinite => rfl
  | finite x => exact storableNumber_shown x

mutual

theorem storable_rounded : ∀ {j : Json}, j.storable = true → j.rounded.storable = true
  | .null => fun h => h
  | .bool _ => fun h => h
  | .num _ => fun _ => storable_number _
  | .str _ => fun h => h
  | .arr _ => fun h => storable_roundedItems h
  | .obj _ => fun h => storable_roundedMembers h

theorem storable_roundedItems : ∀ {items : List Json}, Json.storableItems items = true →
    Json.storableItems (Json.roundedItems items) = true
  | [], h => h
  | _ :: _, h => by
    rw [Json.storableItems, Bool.and_eq_true] at h
    rw [Json.roundedItems, Json.storableItems, Bool.and_eq_true]
    exact ⟨storable_rounded h.1, storable_roundedItems h.2⟩

theorem storable_roundedMembers : ∀ {members : List (String × Json)},
    Json.storableMembers members = true →
      Json.storableMembers (Json.roundedMembers members) = true
  | [], h => h
  | (_, _) :: _, h => by
    rw [Json.storableMembers, Bool.and_eq_true, Bool.and_eq_true] at h
    rw [Json.roundedMembers, Json.storableMembers, Bool.and_eq_true, Bool.and_eq_true]
    exact ⟨⟨h.1.1, storable_rounded h.1.2⟩, storable_roundedMembers h.2⟩

end

theorem storableText_trimmed {s : String} (h : storableText s = true) :
    storableText (Text.trimmed s) = true := by
  rw [← Text.toUnicode_ofString s, storableText_toUnicode] at h
  exact (storableText_trim _).mpr h

theorem Node.Kept.storable_resaved (h : n.Kept) : storableNode n.resaved = true := by
  have hstorable := h.storable
  simp only [storableNode, Bool.and_eq_true] at hstorable ⊢
  obtain ⟨⟨⟨⟨hkind, htitle⟩, hdescription⟩, hresolution⟩, hmetadata⟩ := hstorable
  refine ⟨⟨⟨⟨hkind, storableText_trimmed htitle⟩, storableText_trimmed hdescription⟩, ?_⟩, ?_⟩
  · show (n.terminalResolution.map Text.trimmed).all storableText = true
    cases hres : n.terminalResolution with
    | none => rfl
    | some t =>
      have ht : storableText t = true := by
        simpa [hres, storableOption] using hresolution
      rw [Option.map_some, Option.all_some]
      exact storableText_trimmed ht
  · show storableJson (resavedMetadata n.metadata) = true
    unfold resavedMetadata
    split
    · rename_i m rest hobj
      rw [hobj] at hmetadata
      exact Json.storable_of_storable (storable_rounded hmetadata)
    · rfl

theorem Node.Kept.storable_received (hw : w.Faithful parse) (h : n.Kept) :
    storableNode (receivedNode parse (reopenedNode w n)) = true := by
  obtain ⟨hstored, hdistinct, -⟩ := h.received hw
  have hresaved := h.storable_resaved
  rw [← hstored] at hresaved
  simp only [storableNode, Bool.and_eq_true] at hresaved ⊢
  refine ⟨hresaved.1, ?_⟩
  have hmetadata := hresaved.2
  cases hj : (receivedNode parse (reopenedNode w n)).metadata with
  | none => rfl
  | some j =>
    rw [storedNode, hj] at hmetadata
    exact (Json.storable_jsonb (hdistinct j hj)).mp hmetadata

theorem Edge.storable_resaved {e : Edge} (h : storableEdge e = true) :
    storableEdge e.resaved = true := by
  simp only [storableEdge, Bool.and_eq_true] at h ⊢
  refine ⟨⟨h.1.1, storableText_trimmed h.1.2⟩, ?_⟩
  show ((e.description.map Text.trimmed).filter fun t => t ≠ "").all storableText = true
  cases hdescription : e.description with
  | none => rfl
  | some t =>
    have ht : storableText t = true := by
      simpa [hdescription, storableOption] using h.2
    rw [Option.map_some, Option.filter_some]
    split_ifs
    · rw [Option.all_some]
      exact storableText_trimmed ht
    · rfl

theorem storable_received_reopened (hw : w.Faithful parse) (h : g.Kept) :
    (received parse (reopened w g)).toGraph.Storable := by
  have hnode : ∀ n ∈ (received parse (reopened w g)).toGraph.nodes, storableNode n = true := by
    rw [nodes_received, reopened, List.map_map, List.forall_mem_map]
    exact fun n hn => (h.nodes n hn).storable_received hw
  have hedge : ∀ e ∈ (received parse (reopened w g)).toGraph.edges, storableEdge e = true := by
    rw [edges_received_reopened hw h, Graph.resaved, List.forall_mem_map]
    exact fun e he => Edge.storable_resaved (h.edges e he)
  refine ⟨fun n hn => ?_, fun e he => ?_, fun e he => storable_edge_range (hedge e he)⟩
  · have hstorable := hnode n hn
    simp only [storableNode, Bool.and_eq_true] at hstorable
    obtain ⟨⟨⟨⟨-, htitle⟩, hdescription⟩, hresolution⟩, hmetadata⟩ := hstorable
    exact ⟨htitle, hdescription, hresolution, hmetadata⟩
  · have hstorable := hedge e he
    simp only [storableEdge, Bool.and_eq_true] at hstorable
    exact ⟨hstorable.1.2, hstorable.2⟩

end Interbellum
