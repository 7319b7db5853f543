import Mathlib.Data.Nat.Cast.Order.Field
import Interbellum.Domain.JsonNames
import Interbellum.Frontend.Received
import Interbellum.Guarantees.Bodies

/-!
# Saving what the form holds

The form checks a draft before it sends the graph. The server then decodes the graph, checks it
again and stores it, and not every graph that the form sends can be stored.
-/

namespace Interbellum

open Frontend (PlaybookDraft NodeDraft EdgeDraft serializeNode serializeEdge parseMetadata
  serializePlaybookDraft)
open Utf16 (Text)
open JsonText (Doc)

variable {parse : String → Option UUID} {d : PlaybookDraft}

/-! ## Texts and numbers that can be stored -/

theorem storableText_toUnicode (t : Text) : storableText t.toUnicode = true ↔ 0 ∉ t := by
  rw [storableText, Text.toUnicode, String.toList_ofList, ← Text.zero_mem_chars]
  simp

theorem storableText_jsonbText (t : Text) :
    storableText (Http.jsonbText t) = true ↔ 0 ∉ t ∧ t.wellFormed = true := by
  unfold Http.jsonbText
  split_ifs with h
  · rw [storableText_toUnicode, and_iff_left h]
  · exact iff_of_false (by decide) fun ht => h ht.2

/-- A number of bounded size with a bounded number of digits can be stored. -/
theorem storableNumber_of {q : Rat} {m : ℤ} (hsize : |q| ≤ 2 ^ 1025) (hm : q * 10 ^ 1100 = m) :
    storableNumber q = true := by
  have hfloor : q.num.natAbs / q.den < 10 ^ 131072 := by
    have habs : ((q.num.natAbs / q.den : ℕ) : ℚ) ≤ |q| := by
      refine le_trans Nat.cast_div_le (le_of_eq ?_)
      rw [Nat.cast_natAbs, Int.cast_abs, ← abs_of_pos (Nat.cast_pos.mpr q.den_pos : (0 : ℚ) < _),
        ← abs_div, Rat.num_div_den]
    have hlarge : (2 : ℚ) ^ 1025 < 10 ^ 131072 :=
      calc (2 : ℚ) ^ 1025 < 2 ^ 131072 := pow_lt_pow_right₀ (by norm_num) (by norm_num)
        _ ≤ 10 ^ 131072 := pow_le_pow_left₀ (by norm_num) (by norm_num) _
    exact_mod_cast (habs.trans hsize).trans_lt hlarge
  have hden : q.den ∣ 10 ^ 16383 := by
    have hq : q = ((m : ℤ) : ℚ) / ((10 ^ 1100 : ℤ) : ℚ) := by
      rw [← hm, Int.cast_pow, Int.cast_ofNat, mul_div_cancel_right₀ _ (pow_ne_zero _ (by norm_num))]
    have hdvd := Rat.den_dvd m (10 ^ 1100)
    rw [Rat.divInt_eq_div, ← hq] at hdvd
    exact (by exact_mod_cast hdvd : q.den ∣ 10 ^ 1100).trans (pow_dvd_pow 10 (by norm_num))
  unfold storableNumber
  rw [Bool.and_eq_true, decide_eq_true_eq, decide_eq_true_eq]
  exact ⟨hfloor, Nat.mod_eq_zero_of_dvd hden⟩

theorem storableNumber_shown (x : Ecma.Binary64) : storableNumber x.shown = true := by
  obtain ⟨m, hm⟩ := x.shown_digits
  refine storableNumber_of ?_ hm
  calc |x.shown| ≤ 2 * |x.value| := x.abs_shown_le
    _ ≤ 2 * 2 ^ 1024 := mul_le_mul_of_nonneg_left x.finite.le zero_le_two
    _ = 2 ^ 1025 := (pow_succ' 2 1024).symm

mutual

/-- No text in the value has U+0000 or a surrogate without its pair. -/
def Ecma.Value.Clean : Ecma.Value → Prop
  | .null | .bool _ | .num _ => True
  | .str t => 0 ∉ t ∧ t.wellFormed = true
  | .arr items => CleanItems items
  | .obj members => CleanMembers members

def CleanItems : List Ecma.Value → Prop
  | [] => True
  | v :: rest => v.Clean ∧ CleanItems rest

def CleanMembers : List (Text × Ecma.Value) → Prop
  | [] => True
  | (k, v) :: rest => (0 ∉ k ∧ k.wellFormed = true) ∧ v.Clean ∧ CleanMembers rest

end

mutual

theorem storable_toJson : ∀ v : Ecma.Value, (Http.toJson v.toDoc).storable = true ↔ v.Clean
  | .null | .bool _ => iff_of_true rfl trivial
  | .num .infinite => iff_of_true rfl trivial
  | .num (.finite x) => iff_of_true (storableNumber_shown x) trivial
  | .str t => storableText_jsonbText t
  | .arr items => storableItems_toJson items
  | .obj members => storableMembers_toJson members

theorem storableItems_toJson : ∀ items : List Ecma.Value,
    Json.storableItems (Http.toJsonItems (Ecma.itemDocs items)) = true ↔ CleanItems items
  | [] => iff_of_true rfl trivial
  | v :: rest => by
    rw [Ecma.itemDocs, Http.toJsonItems, Json.storableItems, Bool.and_eq_true, storable_toJson v,
      storableItems_toJson rest, CleanItems]

theorem storableMembers_toJson : ∀ members : List (Text × Ecma.Value),
    Json.storableMembers (Http.toJsonMembers (Ecma.memberDocs members)) = true ↔
      CleanMembers members
  | [] => iff_of_true rfl trivial
  | (k, v) :: rest => by
    rw [Ecma.memberDocs, Http.toJsonMembers, Json.storableMembers, Bool.and_eq_true,
      Bool.and_eq_true, storableText_jsonbText, storable_toJson v, storableMembers_toJson rest,
      CleanMembers, and_assoc]

end

/-! ## Metadata -/

/-- An entry is the last of the members with its name. -/
theorem mem_foldl_setEntry {members : List (Text × Doc)} {entries : List (String × Doc)}
    {e : String × Doc} :
    e ∈ members.foldl (fun entries m => Http.Decoder.setEntry m.1.toUnicode m.2 entries) entries ↔
      (e ∈ entries ∧ ∀ m ∈ members, m.1.toUnicode ≠ e.1) ∨
        ∃ before k d after, members = before ++ (k, d) :: after ∧
          (∀ m ∈ after, m.1.toUnicode ≠ k.toUnicode) ∧ e = (k.toUnicode, d) := by
  induction members generalizing entries with
  | nil => simp
  | cons m rest ih =>
    obtain ⟨k, d⟩ := m
    rw [List.foldl_cons, ih, Http.Decoder.setEntry, List.forall_mem_cons]
    constructor
    · rintro (⟨hmem, hrest⟩ | ⟨before, l, d', after, rfl, hafter, rfl⟩)
      · rcases List.mem_append.mp hmem with hmem | hmem
        · obtain ⟨hmem, hne⟩ := List.mem_filter.mp hmem
          exact .inl ⟨hmem, fun he => of_decide_eq_true hne he.symm, hrest⟩
        · obtain rfl := List.mem_singleton.mp hmem
          exact .inr ⟨[], k, d, rest, rfl, hrest, rfl⟩
      · exact .inr ⟨(k, d) :: before, l, d', after, rfl, hafter, rfl⟩
    · rintro (⟨hmem, hne, hrest⟩ | ⟨before, l, d', after, hsplit, hafter, rfl⟩)
      · refine .inl ⟨List.mem_append_left _ (List.mem_filter.mpr ⟨hmem, ?_⟩), hrest⟩
        exact decide_eq_true (Ne.symm hne)
      · cases before with
        | nil =>
          obtain ⟨⟨rfl, rfl⟩, rfl⟩ := List.cons.inj hsplit
          exact .inl ⟨List.mem_append_right _ (List.mem_singleton_self _), hafter⟩
        | cons m before =>
          obtain ⟨rfl, rfl⟩ := List.cons.inj hsplit
          exact .inr ⟨before, l, d', after, rfl, hafter, rfl⟩

/-- A member counts unless one with the same name follows it. -/
def CleanMetadata (members : List (Text × Ecma.Value)) : Prop :=
  ∀ before k v after, members = before ++ (k, v) :: after →
    (∀ m ∈ after, m.1.toUnicode ≠ k.toUnicode) → 0 ∉ k ∧ v.Clean

theorem memberDocs_eq_map (members : List (Text × Ecma.Value)) :
    Ecma.memberDocs members = members.map fun m => (m.1, m.2.toDoc) := by
  induction members with
  | nil => rfl
  | cons m rest ih => rw [Ecma.memberDocs, ih, List.map_cons]

theorem mem_rawEntries {members : List (Text × Ecma.Value)} {e : String × Doc} :
    e ∈ rawEntries members ↔ ∃ before k v after, members = before ++ (k, v) :: after ∧
      (∀ m ∈ after, m.1.toUnicode ≠ k.toUnicode) ∧ e = (k.toUnicode, v.toDoc) := by
  rw [rawEntries, mem_foldl_setEntry, memberDocs_eq_map]
  constructor
  · rintro (⟨hmem, -⟩ | ⟨before, k, d, after, hsplit, hafter, rfl⟩)
    · exact (List.not_mem_nil hmem).elim
    · obtain ⟨before', tail, rfl, rfl, htail⟩ := List.map_eq_append_iff.mp hsplit
      obtain ⟨⟨l, v⟩, after', rfl, hhead, rfl⟩ := List.map_eq_cons_iff.mp htail
      obtain ⟨rfl, rfl⟩ := Prod.mk.inj hhead
      exact ⟨before', l, v, after', rfl, fun m hm => hafter _ (List.mem_map_of_mem hm), rfl⟩
  · rintro ⟨before, k, v, after, rfl, hafter, rfl⟩
    refine .inr ⟨_, k, v.toDoc, _, List.map_append, ?_, rfl⟩
    intro m hm
    obtain ⟨m', hm', rfl⟩ := List.mem_map.mp hm
    exact hafter m' hm'

theorem storableJson_marshalObject (entries : List (String × Doc)) :
    storableJson (Http.marshalObject (some entries)) = true ↔
      ∀ e ∈ entries, storableText e.1 = true ∧ (Http.toJson e.2).storable = true := by
  cases entries with
  | nil => exact iff_of_true rfl fun _ hm => (List.not_mem_nil hm).elim
  | cons e rest =>
    show Json.storableMembers (List.map _ (List.insertionSort _ (e :: rest))) = true ↔ _
    rw [storableMembers_iff, List.forall_mem_map]
    exact forall_congr' fun x => imp_congr_left
      (List.mem_insertionSort (r := fun a b : String × Doc => a.1 ≤ b.1))

theorem storableJson_metadata (members : List (Text × Ecma.Value)) :
    storableJson (Http.marshalObject (some (rawEntries members))) = true ↔
      CleanMetadata members := by
  rw [storableJson_marshalObject]
  constructor
  · intro h before k v after hsplit hafter
    obtain ⟨hk, hv⟩ := h _ (mem_rawEntries.mpr ⟨before, k, v, after, hsplit, hafter, rfl⟩)
    exact ⟨(storableText_toUnicode k).mp hk, (storable_toJson v).mp hv⟩
  · intro h e he
    obtain ⟨before, k, v, after, hsplit, hafter, rfl⟩ := mem_rawEntries.mp he
    obtain ⟨hk, hv⟩ := h before k v after hsplit hafter
    exact ⟨(storableText_toUnicode k).mpr hk, (storable_toJson v).mpr hv⟩

/-! ## How deep the graph is nested -/

theorem depthItems_le_iff (items : List Doc) (n : ℕ) :
    JsonText.depthItems items ≤ n ↔ ∀ d ∈ items, d.depth ≤ n := by
  induction items with
  | nil => simp [JsonText.depthItems]
  | cons d rest ih => rw [JsonText.depthItems, max_le_iff, ih, List.forall_mem_cons]

theorem depth_textDoc (t : Option Text) : (Frontend.textDoc t).depth = 0 := by
  cases t <;> rfl

theorem depth_number (n : Ecma.Number) : n.toDoc.depth = 0 := by
  cases n <;> rfl

theorem depth_edge (e : Frontend.PlaybookEdge) : e.toDoc.depth = 1 := by
  simp [Frontend.PlaybookEdge.toDoc, Frontend.member, Doc.depth, JsonText.depthMembers,
    depth_textDoc, depth_number]

/-- Only the metadata of a node can be nested. -/
theorem depth_node_le_iff (n : Frontend.PlaybookNode) (room : ℕ) :
    n.toDoc.depth ≤ room + 2 ↔ ∀ members ∈ n.metadata,
      JsonText.depthMembers (Ecma.memberDocs members) ≤ room := by
  cases hmetadata : n.metadata with
  | none =>
    refine iff_of_true ?_ nofun
    simp [Frontend.PlaybookNode.toDoc, Frontend.member, Doc.depth, JsonText.depthMembers,
      depth_textDoc, hmetadata]
  | some members =>
    simp [Frontend.PlaybookNode.toDoc, Frontend.member, Doc.depth, JsonText.depthMembers,
      depth_textDoc, hmetadata]

theorem depth_graph_le_iff (d : PlaybookDraft) :
    d.graph.toDoc.depth ≤ Http.maxNestingDepth ↔ ∀ n ∈ d.nodes,
      ∀ members ∈ (serializeNode n).metadata,
        JsonText.depthMembers (Ecma.memberDocs members) ≤ 9996 := by
  have hedges : JsonText.depthItems (d.graph.edges.map Frontend.PlaybookEdge.toDoc) ≤ 9998 := by
    refine (depthItems_le_iff _ _).mpr fun doc hdoc => ?_
    obtain ⟨e, -, rfl⟩ := List.mem_map.mp hdoc
    rw [depth_edge]
    omega
  have hnodes : JsonText.depthItems (d.graph.nodes.map Frontend.PlaybookNode.toDoc) ≤ 9998 ↔
      ∀ n ∈ d.nodes, (serializeNode n).toDoc.depth ≤ 9996 + 2 := by
    rw [depthItems_le_iff, List.forall_mem_map, PlaybookDraft.graph, List.forall_mem_map]
  have hdepth : d.graph.toDoc.depth ≤ 10000 ↔
      JsonText.depthItems (d.graph.nodes.map Frontend.PlaybookNode.toDoc) ≤ 9998 := by
    simp only [Frontend.PlaybookGraphInput.toDoc, Frontend.member, Doc.depth,
      JsonText.depthMembers, depth_textDoc]
    omega
  rw [Http.maxNestingDepth, hdepth, hnodes]
  exact forall_congr' fun n => imp_congr_right fun _ => depth_node_le_iff _ _

/-! ## What the service takes -/

theorem validateAll_ok {α : Type} {id : α → UUID}
    {check : List UUID → Nat → α → Except AppError Unit} {seen : List UUID} {i : Nat}
    {items : List α} (hids : (items.map id).Nodup) (hseen : ∀ a ∈ items, id a ∉ seen)
    (h : ∀ a ∈ items, ∀ seen i, id a ∉ seen → check seen i a = .ok ()) :
    PlaybookService.validateAll id check seen i items = .ok () := by
  induction items generalizing seen i with
  | nil => rfl
  | cons a rest ih =>
    obtain ⟨ha, hrest⟩ := List.nodup_cons.mp hids
    obtain ⟨hcheck, hchecks⟩ := List.forall_mem_cons.mp h
    obtain ⟨hfirst, hothers⟩ := List.forall_mem_cons.mp hseen
    rw [PlaybookService.validateAll, hcheck seen i hfirst]
    refine ih hrest (fun b hb hmem => ?_) hchecks
    rcases List.mem_cons.mp hmem with he | hmem
    · exact ha (he ▸ List.mem_map_of_mem hb)
    · exact hothers b hb hmem

/-- What the service asks of a graph. -/
structure Graph.WellFormed (g : Graph) : Prop where
  node_ids : (g.nodes.map Node.id).Nodup
  nodes : ∀ n ∈ g.nodes, n.id ≠ UUID.nil ∧ n.kind.valid = true ∧ n.title ≠ ""
  edge_ids : (g.edges.map Edge.id).Nodup
  edges : ∀ e ∈ g.edges, e.id ≠ UUID.nil ∧ e.label ≠ "" ∧ e.fromNodeID ≠ UUID.nil ∧
    e.toNodeID ≠ UUID.nil

theorem validateNode_ok {seen : List UUID} {i : Nat} {n : Node} :
    PlaybookService.validateNode seen i n = .ok () ↔
      n.id ∉ seen ∧ n.id ≠ UUID.nil ∧ n.kind.valid = true ∧ n.title ≠ "" := by
  unfold PlaybookService.validateNode
  split_ifs with hnil hseen htitle
  · simp [hnil]
  · simp [hseen]
  · cases n.kind <;> simp [htitle]
  · cases n.kind <;> simp [hnil, hseen, htitle, NodeKind.valid]

theorem validateEdge_ok {seen : List UUID} {i : Nat} {e : Edge} :
    PlaybookService.validateEdge seen i e = .ok () ↔
      e.id ∉ seen ∧ e.id ≠ UUID.nil ∧ e.label ≠ "" ∧ e.fromNodeID ≠ UUID.nil ∧
        e.toNodeID ≠ UUID.nil := by
  unfold PlaybookService.validateEdge
  split_ifs with hnil hseen hlabel hends
  · simp [hnil]
  · simp [hseen]
  · simp [hlabel]
  · simp only [false_iff]
    tauto
  · rw [not_or] at hends
    simp [hnil, hseen, hlabel, hends]

theorem validateGraphInput_iff {g : Graph} :
    PlaybookService.validateGraphInput g = .ok () ↔ g.WellFormed := by
  constructor
  · intro h
    obtain ⟨hnodes, hedges⟩ := validateGraphInput_ok h
    obtain ⟨hnodeIDs, hedgeIDs⟩ := nodup_of_validateGraphInput h
    refine ⟨hnodeIDs, fun n hn => ?_, hedgeIDs, fun e he => ?_⟩
    · obtain ⟨_, _, hcheck⟩ := validateAll_forall hnodes n hn
      exact (validateNode_ok.mp hcheck).2
    · obtain ⟨_, _, hcheck⟩ := validateAll_forall hedges e he
      exact (validateEdge_ok.mp hcheck).2
  · intro h
    have hnodes : PlaybookService.validateAll Node.id PlaybookService.validateNode [] 0 g.nodes =
        .ok () :=
      validateAll_ok h.node_ids (fun _ _ => List.not_mem_nil) fun n hn _ _ hseen =>
        validateNode_ok.mpr ⟨hseen, h.nodes n hn⟩
    rw [PlaybookService.validateGraphInput, hnodes]
    exact validateAll_ok h.edge_ids (fun _ _ => List.not_mem_nil) fun e he _ _ hseen =>
      validateEdge_ok.mpr ⟨hseen, h.edges e he⟩

theorem Graph.Accepted.storable {s : Store} {id : UUID} {g : Graph} (h : g.Accepted s id) :
    g.Storable := by
  refine ⟨fun n hn => ?_, fun e he => ?_, fun e he => ?_⟩
  · have hstorable := (h.nodes n hn).storable
    simp only [storableNode, Bool.and_eq_true] at hstorable
    obtain ⟨⟨⟨⟨-, htitle⟩, hdescription⟩, hresolution⟩, hmetadata⟩ := hstorable
    exact ⟨htitle, hdescription, hresolution, hmetadata⟩
  · have hstorable := (h.edges e he).storable
    simp only [storableEdge, Bool.and_eq_true] at hstorable
    exact ⟨hstorable.1.2, hstorable.2⟩
  · have hstorable := (h.edges e he).storable
    simp only [storableEdge, int4, Bool.and_eq_true, decide_eq_true_eq] at hstorable
    exact hstorable.1.1

/-- The graphs with which a draft `PUT` succeeds. -/
theorem submitGraph_iff {s : Store} (h : Reachable s) {v : Version} (hv : v ∈ s.versions)
    (hdraft : v.isDraft = true) {g : Graph} :
    (∃ reply, ((Operation.submitGraph v.id g).call.run s).1 = .ok reply) ↔
      g.WellFormed ∧ g.Storable ∧ g.FitsInto s v.id := by
  rw [← validateGraphInput_iff]
  cases hcheck : PlaybookService.validateGraphInput g with
  | error e =>
    rw [submitGraph_error hcheck]
    refine iff_of_false ?_ ?_
    · rintro ⟨reply, hreply⟩
      cases hreply
    · rintro ⟨hok, -⟩
      cases hok
  | ok =>
    have hkind := kind_valid_of_validateGraphInput hcheck
    have haccepted : g.Accepted s v.id ↔ g.Storable ∧ g.FitsInto s v.id := by
      constructor
      · intro hg
        have hstorable := hg.storable
        exact ⟨hstorable, (hstorable.accepted_iff hkind).mp hg⟩
      · rintro ⟨hstorable, hfits⟩
        exact (hstorable.accepted_iff hkind).mpr hfits
    rw [submitGraph_ok hcheck, ← haccepted]
    rcases run_replaceGraph h.valid hv hdraft hcheck with ⟨hok, d, hrun⟩ | ⟨hnot, e, hrun, -⟩
    · rw [hrun]
      exact iff_of_true ⟨_, rfl⟩ ⟨rfl, hok⟩
    · rw [hrun]
      refine iff_of_false ?_ fun hok => hnot hok.2
      rintro ⟨reply, hreply⟩
      cases hreply

/-! ## When it is accepted -/

def idOf (parse : String → Option UUID) (t : Text) : UUID := (parse t.toUnicode).getD UUID.nil

/-- What the server asks of a draft and the form does not check: ids that are distinct as UUIDs
and not the nil UUID, texts and metadata without U+0000, metadata without surrogates outside of
pairs below its top level, choices that are distinct after such surrogates are replaced, and
sort orders in the range of their column. -/
structure Frontend.PlaybookDraft.Sendable (parse : String → Option UUID) (d : PlaybookDraft) :
    Prop where
  node_ids : (d.nodeIds.map (idOf parse)).Nodup
  edge_ids : (d.edges.map fun e => idOf parse e.id).Nodup
  node_ids_ne : ∀ t ∈ d.nodeIds, idOf parse t ≠ UUID.nil
  edge_ids_ne : ∀ e ∈ d.edges, idOf parse e.id ≠ UUID.nil
  node_texts : ∀ n ∈ d.nodes, 0 ∉ n.title ∧ 0 ∉ n.description ∧
    (n.kind = .terminal → 0 ∉ n.terminalResolution)
  edge_texts : ∀ e ∈ d.edges, 0 ∉ e.label ∧ 0 ∉ e.description
  metadata : ∀ n ∈ d.nodes, ∀ members ∈ (serializeNode n).metadata, CleanMetadata members
  nesting : ∀ n ∈ d.nodes, ∀ members ∈ (serializeNode n).metadata,
    JsonText.depthMembers (Ecma.memberDocs members) ≤ 9996
  choices : (d.edges.map fun e => (e.fromNodeId, e.label.trim.toUnicode)).Nodup
  orders : ∀ e ∈ d.edges, OrderFits e.sortOrder

def receivedNode (parse : String → Option UUID) (n : NodeDraft) : Node :=
  (readNode parse (serializeNode n)).toNode

def receivedEdge (parse : String → Option UUID) (e : EdgeDraft) : Edge :=
  (readEdge parse (storedOrder e.sortOrder) (serializeEdge e)).toEdge

theorem nodes_received : (received parse d).toGraph.nodes = d.nodes.map (receivedNode parse) :=
  List.map_map

theorem edges_received : (received parse d).toGraph.edges = d.edges.map (receivedEdge parse) :=
  List.map_map

theorem node_ids_received :
    (received parse d).toGraph.nodes.map Node.id = d.nodeIds.map (idOf parse) := by
  rw [nodes_received, List.map_map, PlaybookDraft.nodeIds, List.map_map]
  rfl

theorem exists_node_received {t : Text} (ht : t ∈ d.nodeIds) :
    ∃ n ∈ (received parse d).toGraph.nodes, n.id = idOf parse t := by
  have hmem : idOf parse t ∈ (received parse d).toGraph.nodes.map Node.id :=
    node_ids_received ▸ List.mem_map_of_mem ht
  exact List.mem_map.mp hmem

theorem kind_receivedNode (n : NodeDraft) :
    (receivedNode parse n).kind = if n.kind = .terminal then .terminal else .decision := by
  cases hk : n.kind <;> simp [receivedNode, readNode, serializeNode, Http.Node.toNode, hk] <;> rfl

theorem wellFormed_received (hd : d.Complete) :
    (received parse d).toGraph.WellFormed ↔ (d.nodeIds.map (idOf parse)).Nodup ∧
      (d.edges.map fun e => idOf parse e.id).Nodup ∧ (∀ t ∈ d.nodeIds, idOf parse t ≠ UUID.nil) ∧
        ∀ e ∈ d.edges, idOf parse e.id ≠ UUID.nil := by
  have hedgeIDs : (received parse d).toGraph.edges.map Edge.id =
      d.edges.map fun e => idOf parse e.id := by
    rw [edges_received, List.map_map]
    rfl
  constructor
  · intro h
    refine ⟨node_ids_received ▸ h.node_ids, hedgeIDs ▸ h.edge_ids, ?_, ?_⟩
    · intro t ht
      have hnode : ∃ n ∈ (received parse d).toGraph.nodes, n.id = idOf parse t :=
        exists_node_received ht
      obtain ⟨n, hn, hid⟩ := hnode
      exact hid ▸ (h.nodes n hn).1
    · intro e he
      exact (h.edges (receivedEdge parse e) (edges_received ▸ List.mem_map_of_mem he)).1
  · rintro ⟨hnodeIDs, hedges, hnodes_ne, hedges_ne⟩
    refine ⟨node_ids_received.symm ▸ hnodeIDs, ?_, hedgeIDs.symm ▸ hedges, ?_⟩
    · rw [nodes_received, List.forall_mem_map]
      intro n hn
      refine ⟨hnodes_ne _ (List.mem_map_of_mem hn), ?_, ?_⟩
      · rw [kind_receivedNode]
        split_ifs <;> rfl
      · exact fun htitle => (hd.nodes n hn).title (Text.toUnicode_eq_empty.mp htitle)
    · rw [edges_received, List.forall_mem_map]
      intro e he
      have hcomplete := hd.edges e he
      exact ⟨hedges_ne e he, fun hlabel => hcomplete.label (Text.toUnicode_eq_empty.mp hlabel),
        hnodes_ne _ hcomplete.from_node, hnodes_ne _ hcomplete.to_node⟩

theorem storableText_trim (t : Text) : storableText t.trim.toUnicode = true ↔ 0 ∉ t := by
  rw [storableText_toUnicode, Text.mem_trim Utf16.not_isSpace_zero]

theorem storable_receivedNode (n : NodeDraft) :
    (storableText (receivedNode parse n).title = true ∧
        storableText (receivedNode parse n).description = true ∧
        storableOption (receivedNode parse n).terminalResolution = true ∧
        storableJson (receivedNode parse n).metadata = true) ↔
      (0 ∉ n.title ∧ 0 ∉ n.description ∧ (n.kind = .terminal → 0 ∉ n.terminalResolution)) ∧
        ∀ members ∈ (serializeNode n).metadata, CleanMetadata members := by
  have hresolution : storableOption (receivedNode parse n).terminalResolution = true ↔
      (n.kind = .terminal → 0 ∉ n.terminalResolution) := by
    show storableOption ((if n.kind = .terminal then some n.terminalResolution.trim
      else none).map Text.toUnicode) = true ↔ _
    split_ifs with hkind
    · simp only [Option.map_some, storableOption, Option.all_some, storableText_trim, hkind,
        true_implies]
    · exact iff_of_true rfl fun h => absurd h hkind
  have hmetadata : storableJson (receivedNode parse n).metadata = true ↔
      ∀ members ∈ (serializeNode n).metadata, CleanMetadata members := by
    show storableJson (Http.marshalObject ((serializeNode n).metadata.map rawEntries)) = true ↔ _
    cases (serializeNode n).metadata with
    | none => exact iff_of_true rfl nofun
    | some members =>
      rw [Option.map_some, storableJson_metadata]
      exact ⟨fun h m hm => Option.mem_some_iff.mp hm ▸ h, fun h => h _ rfl⟩
  have htitle : storableText (receivedNode parse n).title = true ↔ 0 ∉ n.title :=
    storableText_trim n.title
  have hdescription : storableText (receivedNode parse n).description = true ↔
      0 ∉ n.description := storableText_trim n.description
  rw [htitle, hdescription, hresolution, hmetadata, and_assoc, and_assoc]

theorem storable_receivedEdge (e : EdgeDraft) :
    (storableText (receivedEdge parse e).label = true ∧
        storableOption (receivedEdge parse e).description = true) ↔
      0 ∉ e.label ∧ 0 ∉ e.description := by
  have hlabel : storableText (receivedEdge parse e).label = true ↔ 0 ∉ e.label :=
    storableText_trim e.label
  have hdescription : storableOption (receivedEdge parse e).description = true ↔
      0 ∉ e.description := by
    show storableOption ((if e.description.trim = [] then none
      else some e.description.trim).map Text.toUnicode) = true ↔ _
    split_ifs with hempty
    · refine iff_of_true rfl ?_
      rw [← Text.mem_trim Utf16.not_isSpace_zero, hempty]
      exact List.not_mem_nil
    · simp only [Option.map_some, storableOption, Option.all_some, storableText_trim]
  rw [hlabel, hdescription]

theorem storable_received (horders : ∀ e ∈ d.edges, OrderFits e.sortOrder) :
    (received parse d).toGraph.Storable ↔
      (∀ n ∈ d.nodes, (0 ∉ n.title ∧ 0 ∉ n.description ∧
          (n.kind = .terminal → 0 ∉ n.terminalResolution)) ∧
        ∀ members ∈ (serializeNode n).metadata, CleanMetadata members) ∧
      ∀ e ∈ d.edges, 0 ∉ e.label ∧ 0 ∉ e.description := by
  constructor
  · intro h
    have hnodes := h.nodes
    have hedges := h.edges
    rw [nodes_received, List.forall_mem_map] at hnodes
    rw [edges_received, List.forall_mem_map] at hedges
    exact ⟨fun n hn => (storable_receivedNode n).mp (hnodes n hn),
      fun e he => (storable_receivedEdge e).mp (hedges e he)⟩
  · rintro ⟨hnodes, hedges⟩
    refine ⟨?_, ?_, ?_⟩
    · rw [nodes_received, List.forall_mem_map]
      exact fun n hn => (storable_receivedNode n).mpr (hnodes n hn)
    · rw [edges_received, List.forall_mem_map]
      exact fun e he => (storable_receivedEdge e).mpr (hedges e he)
    · rw [edges_received, List.forall_mem_map]
      exact fun e he => (run_of_orderFits (horders e he)).2

/-- The ids of a draft are not those of rows of other versions. -/
structure UnusedIds (parse : String → Option UUID) (s : Store) (id : UUID) (d : PlaybookDraft) :
    Prop where
  nodes : ∀ r ∈ s.nodes, r.versionID ≠ id → ∀ n ∈ d.nodes, parse n.id.toUnicode ≠ some r.node.id
  edges : ∀ r ∈ s.edges, r.versionID ≠ id → ∀ e ∈ d.edges, parse e.id.toUnicode ≠ some r.edge.id

theorem idOf_ne {t : Text} {id : UUID} (hparse : ∃ i, parse t.toUnicode = some i)
    (h : parse t.toUnicode ≠ some id) : id ≠ idOf parse t := by
  obtain ⟨i, hi⟩ := hparse
  rw [idOf, hi, Option.getD_some]
  rintro rfl
  exact h hi

theorem fits_received {s : Store} {id : UUID} (hids : IdsParse parse d) (hd : d.Complete)
    (hunused : UnusedIds parse s id d) (hnodup : (d.nodeIds.map (idOf parse)).Nodup) :
    (received parse d).toGraph.FitsInto s id ↔
      (d.edges.map fun e => (e.fromNodeId, e.label.trim.toUnicode)).Nodup := by
  -- nodes that are distinct as UUIDs are told apart by their texts
  have hinj : ∀ x ∈ d.nodeIds, ∀ y ∈ d.nodeIds, idOf parse x = idOf parse y → x = y :=
    fun x hx y hy => List.inj_on_of_nodup_map hnodup hx hy
  have hchoices : ((received parse d).toGraph.edges.map fun e => (e.fromNodeID, e.label)).Nodup ↔
      (d.edges.map fun e => (e.fromNodeId, e.label.trim.toUnicode)).Nodup := by
    have hmap : (received parse d).toGraph.edges.map (fun e => (e.fromNodeID, e.label)) =
        (d.edges.map fun e => (e.fromNodeId, e.label.trim.toUnicode)).map
          fun c => (idOf parse c.1, c.2) := by
      rw [edges_received, List.map_map, List.map_map]
      rfl
    rw [hmap]
    refine ⟨List.Nodup.of_map _, fun h => h.map_on ?_⟩
    intro c hc c' hc' he
    obtain ⟨e, hmem, rfl⟩ := List.mem_map.mp hc
    obtain ⟨e', hmem', rfl⟩ := List.mem_map.mp hc'
    obtain ⟨hfrom, hlabel⟩ := Prod.mk.inj he
    exact Prod.ext (hinj _ (hd.edges e hmem).from_node _ (hd.edges e' hmem').from_node hfrom) hlabel
  constructor
  · exact fun h => hchoices.mp h.choices
  · intro h
    refine ⟨?_, ?_, ?_, hchoices.mpr h, ?_, ?_⟩
    · rw [edges_received, List.forall_mem_map]
      exact fun e he => ⟨exists_node_received (hd.edges e he).from_node,
        exists_node_received (hd.edges e he).to_node⟩
    · intro root hroot
      have hroot' : (if d.rootNodeId = [] then none else some d.rootNodeId).bind
          (fun r => parse r.toUnicode) = some root := hroot
      split_ifs at hroot' with hempty
      · cases hroot'
      have hid : idOf parse d.rootNodeId = root := by
        rw [idOf, show parse d.rootNodeId.toUnicode = some root from hroot', Option.getD_some]
      exact hid ▸ exists_node_received (hd.root hempty)
    · rw [nodes_received, List.forall_mem_map]
      intro n hn
      rw [kind_receivedNode]
      show _ ↔ ((if n.kind = .terminal then some n.terminalResolution.trim
        else none).map Text.toUnicode).isSome = true
      split_ifs <;> simp
    · intro r hr hne
      rw [nodes_received, List.forall_mem_map]
      exact fun n hn => idOf_ne (hids.nodes n hn) (hunused.nodes r hr hne n hn)
    · intro r hr hne
      rw [edges_received, List.forall_mem_map]
      exact fun e he => idOf_ne (hids.edges e he) (hunused.edges r hr hne e he)

/-- The document is the body of a draft `PUT` that is answered with the new definition. -/
def PutAccepts (parse : String → Option UUID) (s : Store) (versionID : UUID) (d : Doc) : Prop :=
  d.depth ≤ Http.maxNestingDepth ∧ ∃ req,
    (Http.graphInput parse).run [] (Http.graphInput parse).zero d = .ok req ∧
      ∃ reply, ((Operation.submitGraph versionID req.toGraph).call.run s).1 = .ok reply

/-- The handler reads the document from the body. -/
theorem putAccepts_iff {s : Store} {id : UUID} {versionID contentType : String} {body : Text}
    {doc : Doc} (hid : parse versionID = some id) (htype : Http.acceptsType contentType = true)
    (hbody : Http.Holds body doc) :
    PutAccepts parse s id doc ↔
      ∃ reply, ((Http.replaceGraph parse versionID contentType body).run s).1 = .ok reply := by
  have hpath : Http.pathUUID parse "versionId" versionID = .ok id := by
    rw [Http.pathUUID, hid]
  have hread : ∀ req, Http.decodeJSON (Http.graphInput parse) contentType body = .ok req ↔
      doc.depth ≤ Http.maxNestingDepth ∧
        (Http.graphInput parse).run [] (Http.graphInput parse).zero doc = .ok req := by
    intro req
    rw [Http.decodeJSON_eq_ok, and_iff_right htype]
    constructor
    · rintro ⟨d', hd', hdepth, hrun⟩
      obtain rfl := hbody.unique hd'
      exact ⟨hdepth, hrun⟩
    · rintro ⟨hdepth, hrun⟩
      exact ⟨doc, hbody, hdepth, hrun⟩
  unfold Http.replaceGraph
  rw [hpath]
  dsimp only
  cases hreq : Http.decodeJSON (Http.graphInput parse) contentType body with
  | error e =>
    refine iff_of_false ?_ ?_
    · rintro ⟨hdepth, req, hrun, -⟩
      rw [(hread req).mpr ⟨hdepth, hrun⟩] at hreq
      cases hreq
    · rintro ⟨reply, hreply⟩
      cases hreply
  | ok req =>
    obtain ⟨hdepth, hrun⟩ := (hread req).mp hreq
    constructor
    · rintro ⟨-, req', hrun', hreply⟩
      rwa [Except.ok.inj (hrun.symm.trans hrun')]
    · exact fun hreply => ⟨hdepth, req, hrun, hreply⟩

theorem orders_of_putAccepts {s : Store} {v : Version} (h : Reachable s)
    (hv : v ∈ s.versions) (hdraft : v.isDraft = true) (hids : IdsParse parse d)
    (hd : d.Complete) (hput : PutAccepts parse s v.id d.graph.toDoc) :
    ∀ e ∈ d.edges, OrderFits e.sortOrder := by
  obtain ⟨-, req, hrun, hreply⟩ := hput
  obtain ⟨-, hstorable, -⟩ := (submitGraph_iff h hv hdraft).mp hreply
  intro e he
  obtain ⟨edge, hedge, path, horder⟩ := orders_of_run_graph hids hd hrun e he
  exact orderFits_of_run horder (hstorable.sortOrders edge hedge)

/-- What the form sends is accepted exactly when the draft is sendable. -/
theorem serialized_accepted_iff {s : Store} (h : Reachable s) {v : Version}
    (hv : v ∈ s.versions) (hdraft : v.isDraft = true) (hids : IdsParse parse d)
    (hunused : UnusedIds parse s v.id d) {g : Frontend.PlaybookGraphInput}
    (hg : serializePlaybookDraft d = .ok g) :
    PutAccepts parse s v.id g.toDoc ↔ d.Sendable parse := by
  obtain ⟨hd, rfl⟩ := Frontend.serializePlaybookDraft_eq_ok.mp hg
  have hiff (horders : ∀ e ∈ d.edges, OrderFits e.sortOrder) :
      PutAccepts parse s v.id d.graph.toDoc ↔ d.graph.toDoc.depth ≤ Http.maxNestingDepth ∧
        (received parse d).toGraph.WellFormed ∧ (received parse d).toGraph.Storable ∧
          (received parse d).toGraph.FitsInto s v.id := by
    rw [PutAccepts, ← submitGraph_iff h hv hdraft]
    refine and_congr_right fun _ => ⟨?_, fun hreply => ⟨_, run_graph hids hd horders, hreply⟩⟩
    rintro ⟨req, hrun, hreply⟩
    rwa [Except.ok.inj ((run_graph hids hd horders).symm.trans hrun)]
  constructor
  · intro hput
    have horders := orders_of_putAccepts h hv hdraft hids hd hput
    obtain ⟨hdepth, hwellFormed, hstorable, hfits⟩ := (hiff horders).mp hput
    obtain ⟨hnodeIDs, hedgeIDs, hnodes_ne, hedges_ne⟩ := (wellFormed_received hd).mp hwellFormed
    obtain ⟨hnodes, hedges⟩ := (storable_received horders).mp hstorable
    exact ⟨hnodeIDs, hedgeIDs, hnodes_ne, hedges_ne, fun n hn => (hnodes n hn).1, hedges,
      fun n hn => (hnodes n hn).2, (depth_graph_le_iff d).mp hdepth,
      (fits_received hids hd hunused hnodeIDs).mp hfits, horders⟩
  · intro hsend
    refine (hiff hsend.orders).mpr ⟨(depth_graph_le_iff d).mpr hsend.nesting, ?_, ?_, ?_⟩
    · exact (wellFormed_received hd).mpr
        ⟨hsend.node_ids, hsend.edge_ids, hsend.node_ids_ne, hsend.edge_ids_ne⟩
    · exact (storable_received hsend.orders).mpr
        ⟨fun n hn => ⟨hsend.node_texts n hn, hsend.metadata n hn⟩, hsend.edge_texts⟩
    · exact (fits_received hids hd hunused hsend.node_ids).mpr hsend.choices

/-- A decision with one choice, which ends the playbook. -/
def Triage.form (sortOrder : String) : PlaybookDraft where
  rootNodeId := .ofString "00000000-0000-0000-0000-00000000000d"
  nodes :=
    [⟨.ofString "00000000-0000-0000-0000-00000000000d", .decision, .ofString "Is it real?", [], [], []⟩,
     ⟨.ofString "00000000-0000-0000-0000-00000000000e", .terminal, .ofString "Done", [],
       .ofString "resolved", []⟩]
  edges :=
    [⟨.ofString "00000000-0000-0000-0000-00000000000f",
      .ofString "00000000-0000-0000-0000-00000000000d",
      .ofString "00000000-0000-0000-0000-00000000000e", .ofString "no", [], .ofString sortOrder⟩]

theorem Triage.idsParse_form (sortOrder : String) :
    IdsParse Triage.uuid (Triage.form sortOrder) := by
  constructor
  · intro n hn
    simp only [Triage.form, List.mem_cons, List.not_mem_nil, or_false] at hn
    rcases hn with rfl | rfl <;> rw [Text.toUnicode_ofString]
    · exact ⟨13, by decide⟩
    · exact ⟨14, by decide⟩
  · intro e he
    obtain rfl := List.mem_singleton.mp he
    rw [Text.toUnicode_ofString]
    exact ⟨15, by decide⟩

theorem Triage.unusedIds_form (sortOrder : String) :
    UnusedIds Triage.uuid Triage.drafted 2 (Triage.form sortOrder) := by
  have hnodes : ∀ r ∈ Triage.drafted.nodes, r.versionID = 2 := by decide +kernel
  have hedges : ∀ r ∈ Triage.drafted.edges, r.versionID = 2 := by decide +kernel
  exact ⟨fun r hr hne => absurd (hnodes r hr) hne, fun r hr hne => absurd (hedges r hr) hne⟩

theorem Triage.serialize_form (sortOrder : String) :
    serializePlaybookDraft (Triage.form sortOrder) = .ok (Triage.form sortOrder).graph := by
  have herrors : (Triage.form sortOrder).errors = (Triage.form "").errors := rfl
  rw [serializePlaybookDraft, herrors, if_pos (by decide +kernel)]

theorem serialized_accepted_triage :
    PutAccepts Triage.uuid Triage.drafted 2 (Triage.form "1").graph.toDoc := by
  refine (serialized_accepted_iff (v := ⟨2, 1, 1, .draft, some 10, 7, none⟩)
    (Reachable.empty.after _) (by decide +kernel) rfl (Triage.idsParse_form _)
    (Triage.unusedIds_form _) (Triage.serialize_form "1")).mpr ?_
  have hmetadata : ∀ n ∈ (Triage.form "1").nodes, (serializeNode n).metadata = none := by
    decide +kernel
  refine ⟨by decide +kernel, by decide +kernel, by decide +kernel, by decide +kernel,
    by decide +kernel, by decide +kernel, ?_, ?_, by decide +kernel, ?_⟩
  · intro n hn members hmembers
    rw [hmetadata n hn] at hmembers
    cases hmembers
  · intro n hn members hmembers
    rw [hmetadata n hn] at hmembers
    cases hmembers
  · intro e he n hn
    obtain rfl := List.mem_singleton.mp he
    have horder : Ecma.leadingInteger (.ofString "1") = some 1 := by decide +kernel
    obtain rfl := Option.some.inj (horder.symm.trans hn)
    exact .inl (by decide)

/-- The first sort order past its column. -/
theorem serialized_rejected : ¬ ∀ (parse : String → Option UUID) (s : Store) (v : Version)
    (d : PlaybookDraft) (g : Frontend.PlaybookGraphInput), Reachable s → v ∈ s.versions →
      v.isDraft = true → IdsParse parse d → UnusedIds parse s v.id d →
        serializePlaybookDraft d = .ok g → PutAccepts parse s v.id g.toDoc := by
  intro hclaim
  have hversion : (⟨2, 1, 1, .draft, some 10, 7, none⟩ : Version) ∈ Triage.drafted.versions := by
    decide +kernel
  have hserialize := Triage.serialize_form "2147483648"
  have hput := hclaim Triage.uuid Triage.drafted _ _ _ (Reachable.empty.after _) hversion rfl
    (Triage.idsParse_form _) (Triage.unusedIds_form _) hserialize
  have horders := orders_of_putAccepts (Reachable.empty.after _) hversion rfl
    (Triage.idsParse_form _) (Frontend.serializePlaybookDraft_eq_ok.mp hserialize).1 hput
  have hfits := horders _ (List.mem_singleton_self _) 2147483648 (by decide +kernel)
  have hlarge : (2 : ℤ) ^ 971 ≤ 2 ^ 1024 := pow_le_pow_right₀ (by norm_num) (by norm_num)
  have hsmall : (2 : ℤ) ^ 40 ≤ 2 ^ 970 := pow_le_pow_right₀ (by norm_num) (by norm_num)
  rw [pow_succ'] at hlarge
  rw [abs_of_pos (by norm_num)] at hfits
  omega

end Interbellum
