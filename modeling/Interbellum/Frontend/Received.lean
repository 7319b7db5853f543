import Interbellum.Frontend.PlaybookDraft
import Interbellum.Http.Playbook

/-!
# What the server reads of the form

The graph that the form sends, as the server decodes it. The ids are read by `parse`.

* `run_graph_eq`, `run_graph`: the graph is read unless a sort order is not.
* `orderFits_of_run`, `run_of_orderFits`: which sort orders are read as a 32-bit integer.
-/

namespace Interbellum

open Frontend (PlaybookDraft NodeDraft EdgeDraft PlaybookNode PlaybookEdge PlaybookGraphInput member
  textDoc serializeNode serializeEdge parseMetadata parseSortOrder serializePlaybookDraft)
open Utf16 (Text)
open JsonText (Doc)

variable {parse : String → Option UUID}

/-! ## What the server reads -/

section

open Http.Decoder

/-- A member goes to the field of its name. -/
theorem runMembers_field {τ σ : Type} {fields : List (Http.Field σ)} {path : List String} {old : σ}
    {name : String} {t : Http.Decoder τ} {get : σ → τ} {set : σ → τ → σ} {d : Doc} {v : τ}
    {rest : List (Text × Doc)} (hfield : fieldFor fields name = some (field name t get set))
    (hv : t.run (path ++ [name]) (get old) d = .ok v) :
    runMembers fields path old (member name d :: rest) =
      runMembers fields path (set old v) rest := by
  simp only [member, runMembers, Text.toUnicode_ofString, hfield]
  show ((t.run (path ++ [name]) (get old) d).map (set old) >>= _) = _
  rw [hv]
  rfl

theorem runMembers_last {τ σ : Type} {fields : List (Http.Field σ)} {path : List String} {old : σ}
    {name : String} {t : Http.Decoder τ} {get : σ → τ} {set : σ → τ → σ} {d : Doc}
    (hfield : fieldFor fields name = some (field name t get set)) :
    runMembers fields path old [member name d] =
      (t.run (path ++ [name]) (get old) d).map (set old) := by
  simp only [member, runMembers, Text.toUnicode_ofString, hfield]
  show ((t.run (path ++ [name]) (get old) d).map (set old) >>= _) = _
  cases t.run (path ++ [name]) (get old) d <;> rfl

/-- The entries of the map that an object is read into. -/
def rawEntries (members : List (Text × Ecma.Value)) : List (String × Doc) :=
  (Ecma.memberDocs members).foldl (fun entries m => setEntry m.1.toUnicode m.2 entries) []

def readNode (parse : String → Option UUID) (n : PlaybookNode) : Http.Node where
  id := (parse n.id.toUnicode).getD UUID.nil
  kind := n.kind.text
  title := n.title.toUnicode
  description := n.description.toUnicode
  terminalResolution := n.terminalResolution.map Text.toUnicode
  metadata := n.metadata.map rawEntries

theorem run_uuid {path : List String} {old id : UUID} {t : Text}
    (h : parse t.toUnicode = some id) : (uuid parse).run path old (.str t) = .ok id := by
  simp only [uuid, h]

theorem run_text {path : List String} {old : String} (t : Text) :
    string.run path old (.str t) = .ok t.toUnicode := rfl

theorem run_metadata {path : List String} (metadata : Option (List (Text × Ecma.Value))) :
    rawMap.run path none (match metadata with
      | none => .null
      | some members => .obj (Ecma.memberDocs members)) = .ok (metadata.map rawEntries) := by
  cases metadata <;> rfl

def readEdge (parse : String → Option UUID) (z : ℤ) (e : PlaybookEdge) : Http.Edge where
  id := (parse e.id.toUnicode).getD UUID.nil
  fromNodeID := (parse e.fromNodeId.toUnicode).getD UUID.nil
  toNodeID := (parse e.toNodeId.toUnicode).getD UUID.nil
  label := e.label.toUnicode
  description := e.description.map Text.toUnicode
  sortOrder := z

theorem run_textDoc {path : List String} {old : Option String} (t : Option Text) :
    (pointer string).run path old (textDoc t) = .ok (t.map Text.toUnicode) := by
  cases t <;> rfl

theorem run_node {path : List String} {n : PlaybookNode} {id : UUID}
    (h : parse n.id.toUnicode = some id) :
    (Http.node parse).run path (Http.node parse).zero n.toDoc = .ok (readNode parse n) := by
  show runMembers (Http.nodeFields parse) path _ _ = _
  refine (runMembers_field rfl (run_uuid h)).trans ?_
  refine (runMembers_field rfl (run_text _)).trans ?_
  refine (runMembers_field rfl (run_text _)).trans ?_
  refine (runMembers_field rfl (run_text _)).trans ?_
  refine (runMembers_field rfl (run_textDoc _)).trans ?_
  refine (runMembers_field rfl (run_metadata _)).trans ?_
  rw [readNode, h, Text.toUnicode_ofString]
  rfl

theorem run_edge {path : List String} {e : PlaybookEdge} {id fromID toID : UUID}
    (hid : parse e.id.toUnicode = some id) (hfrom : parse e.fromNodeId.toUnicode = some fromID)
    (hto : parse e.toNodeId.toUnicode = some toID) :
    (Http.edge parse).run path (Http.edge parse).zero e.toDoc =
      (int.run (path ++ ["sort_order"]) 0 e.sortOrder.toDoc).map fun z => readEdge parse z e := by
  show runMembers (Http.edgeFields parse) path _ _ = _
  refine (runMembers_field rfl (run_uuid hid)).trans ?_
  refine (runMembers_field rfl (run_uuid hfrom)).trans ?_
  refine (runMembers_field rfl (run_uuid hto)).trans ?_
  refine (runMembers_field rfl (run_text _)).trans ?_
  refine (runMembers_field rfl (run_textDoc _)).trans ?_
  refine (runMembers_last rfl).trans ?_
  simp only [readEdge, hid, hfrom, hto]
  rfl

theorem runItems_map {τ α : Type} {t : Http.Decoder τ} {path : List String} {doc : α → Doc}
    {f : α → τ} {items : List α} (h : ∀ a ∈ items, t.run path t.zero (doc a) = .ok (f a)) :
    t.runItems path [] (items.map doc) = .ok (items.map f) := by
  induction items with
  | nil => rfl
  | cons a rest ih =>
    obtain ⟨ha, hrest⟩ := List.forall_mem_cons.mp h
    rw [List.map_cons, runItems, List.head?_nil, Option.getD_none, ha, List.tail_nil, ih hrest]
    rfl

theorem exists_of_runItems {τ : Type} {t : Http.Decoder τ} {path : List String} {items : List Doc}
    {vs : List τ} (h : t.runItems path [] items = .ok vs) :
    ∀ d ∈ items, ∃ v ∈ vs, t.run path t.zero d = .ok v := by
  induction items generalizing vs with
  | nil => exact fun _ hd => (List.not_mem_nil hd).elim
  | cons d rest ih =>
    obtain ⟨v, hv, h⟩ := JsonText.ok_of_bind h
    obtain ⟨vs', hvs, h⟩ := JsonText.ok_of_bind h
    obtain rfl := Except.ok.inj h
    refine List.forall_mem_cons.mpr ⟨⟨v, List.mem_cons_self, hv⟩, fun d' hd' => ?_⟩
    obtain ⟨v', hv', hrun⟩ := ih hvs d' hd'
    exact ⟨v', List.mem_cons_of_mem _ hv', hrun⟩

/-! ## Sort orders -/

/-- The text does not start with an integer outside of the column's range, or it starts with one
that is too large for a double, which is sent as null. -/
def OrderFits (raw : Text) : Prop :=
  ∀ n ∈ Ecma.leadingInteger raw,
    (-2147483648 ≤ n ∧ n ≤ 2147483647) ∨ 2 ^ 1024 - 2 ^ 970 ≤ |n|

theorem parseSortOrder_eq (raw : Text) :
    parseSortOrder raw = .ofRat ((Ecma.leadingInteger raw).getD 0 : ℤ) := by
  rw [parseSortOrder, Ecma.parseInt]
  cases Ecma.leadingInteger raw with
  | none =>
    rw [Option.map_none, Option.getD_none, Option.getD_none, Int.cast_zero]
  | some n => rfl

theorem orderFits_iff (raw : Text) :
    OrderFits raw ↔ (-2147483648 ≤ (Ecma.leadingInteger raw).getD 0 ∧
      (Ecma.leadingInteger raw).getD 0 ≤ 2147483647) ∨
        2 ^ 1024 - 2 ^ 970 ≤ |(Ecma.leadingInteger raw).getD 0| := by
  unfold OrderFits
  cases Ecma.leadingInteger raw with
  | none => exact iff_of_true nofun (.inl ⟨by norm_num, by norm_num⟩)
  | some n =>
    rw [Option.getD_some]
    exact ⟨fun h => h n rfl, fun h m hm => Option.mem_some_iff.mp hm ▸ h⟩

/-- The sort order that is stored. -/
def storedOrder (raw : Text) : ℤ :=
  match parseSortOrder raw with
  | .infinite => 0
  | .finite x => x.shown.num

theorem orderFits_of_run {raw : Text} {path : List String} {z : ℤ}
    (h : int.run path 0 (parseSortOrder raw).toDoc = .ok z)
    (hz : -2147483648 ≤ z ∧ z ≤ 2147483647) : OrderFits raw := by
  rw [orderFits_iff]
  have hnumber := parseSortOrder_eq raw
  cases hn : parseSortOrder raw with
  | infinite =>
    rw [hn] at hnumber
    exact .inr (Ecma.ofRat_int_infinite.mp hnumber.symm)
  | finite x =>
    rw [hn] at h hnumber
    simp only [int, Ecma.Number.toDoc] at h
    split_ifs at h with hplain
    obtain rfl := Except.ok.inj h
    have hden : x.shown.den = 1 := by
      have := hplain.1
      simp only [Bool.and_eq_true, decide_eq_true_eq] at this
      exact this.1
    have hshown : x.shown = x.shown.num := (Rat.coe_int_num_of_den_eq_one hden).symm
    have hsmall : |x.shown.num| < 2 ^ 52 := abs_lt.mpr ⟨by omega, by omega⟩
    rw [(Ecma.shown_ofRat_int hnumber.symm hsmall).mp hshown]
    exact .inl hz

theorem run_of_orderFits {raw : Text} (h : OrderFits raw) :
    (∀ path, int.run path 0 (parseSortOrder raw).toDoc = .ok (storedOrder raw)) ∧
      -2147483648 ≤ storedOrder raw ∧ storedOrder raw ≤ 2147483647 := by
  rw [orderFits_iff] at h
  have hnumber := parseSortOrder_eq raw
  unfold storedOrder
  cases hn : parseSortOrder raw with
  | infinite => exact ⟨fun _ => rfl, by norm_num, by norm_num⟩
  | finite x =>
    rw [hn] at hnumber
    have hrange := h.resolve_right fun hlarge => by
      rw [Ecma.ofRat_int_infinite.mpr hlarge] at hnumber
      cases hnumber
    generalize (Ecma.leadingInteger raw).getD 0 = n at hnumber hrange
    have hsmall : |n| < 2 ^ 52 := abs_lt.mpr ⟨by omega, by omega⟩
    have hshown : x.shown = n := (Ecma.shown_ofRat_int hnumber.symm hsmall).mpr rfl
    have hplain : |(n : Rat)| < 10 ^ 21 := by
      have : |(n : Rat)| < 2 ^ 52 := by exact_mod_cast hsmall
      linarith
    have hden : x.shown.den = 1 := by
      rw [hshown]
      rfl
    have hnum : x.shown.num = n := by rw [hshown, Rat.num_intCast]
    have hwritten : (x.shown.den = 1 && |x.shown| < 10 ^ 21) = true := by
      rw [hden, hshown]
      simp [hplain]
    refine ⟨fun path => if_pos ⟨hwritten, by omega, by omega⟩, ?_⟩
    simp only [hnum]
    exact hrange

/-! ## The graph that the server stores -/

def received (parse : String → Option UUID) (d : PlaybookDraft) : Http.GraphInput where
  rootNodeID := d.graph.rootNodeId.bind fun root => parse root.toUnicode
  nodes := some (d.nodes.map fun n => readNode parse (serializeNode n))
  edges := some (d.edges.map fun e => readEdge parse (storedOrder e.sortOrder) (serializeEdge e))

/-- Every id of the draft is a UUID. -/
structure IdsParse (parse : String → Option UUID) (d : PlaybookDraft) : Prop where
  nodes : ∀ n ∈ d.nodes, ∃ id, parse n.id.toUnicode = some id
  edges : ∀ e ∈ d.edges, ∃ id, parse e.id.toUnicode = some id

variable {d : PlaybookDraft}

theorem IdsParse.of_mem (h : IdsParse parse d) {t : Text} (ht : t ∈ d.nodeIds) :
    ∃ id, parse t.toUnicode = some id := by
  obtain ⟨n, hn, rfl⟩ := List.mem_map.mp ht
  exact h.nodes n hn

theorem run_edge_of_draft (hids : IdsParse parse d) (hd : d.Complete) {e : EdgeDraft}
    (he : e ∈ d.edges) (path : List String) :
    (Http.edge parse).run path (Http.edge parse).zero (serializeEdge e).toDoc =
      (int.run (path ++ ["sort_order"]) 0 (parseSortOrder e.sortOrder).toDoc).map
        fun z => readEdge parse z (serializeEdge e) := by
  obtain ⟨id, hid⟩ := hids.edges e he
  obtain ⟨fromID, hfrom⟩ := hids.of_mem (hd.edges e he).from_node
  obtain ⟨toID, hto⟩ := hids.of_mem (hd.edges e he).to_node
  exact run_edge (e := serializeEdge e) hid hfrom hto

/-- Whether the graph is read depends on its edges. -/
theorem run_graph_eq (hids : IdsParse parse d) (hd : d.Complete) :
    (Http.graphInput parse).run [] (Http.graphInput parse).zero d.graph.toDoc =
      ((Http.edge parse).runItems ["edges"] [] (d.edges.map fun e => (serializeEdge e).toDoc)).map
        fun edges => { received parse d with edges := some edges } := by
  have hroot : (pointer (uuid parse)).run ["root_node_id"] none (textDoc d.graph.rootNodeId) =
      .ok (d.graph.rootNodeId.bind fun root => parse root.toUnicode) := by
    by_cases hempty : d.rootNodeId = []
    · simp only [PlaybookDraft.graph, if_pos hempty]
      rfl
    · obtain ⟨id, hid⟩ := hids.of_mem (hd.root hempty)
      simp only [PlaybookDraft.graph, if_neg hempty, Option.bind_some, hid]
      show ((uuid parse).run _ _ (.str d.rootNodeId)).map some = _
      rw [run_uuid hid]
      rfl
  have hnodes : (slice "[]httpdto.Node" (Http.node parse)).run ["nodes"] none
      (.arr (d.graph.nodes.map PlaybookNode.toDoc)) =
        .ok (some (d.nodes.map fun n => readNode parse (serializeNode n))) := by
    show ((Http.node parse).runItems _ [] _).map some = _
    rw [PlaybookDraft.graph, List.map_map, runItems_map fun n hn => ?_]
    · rfl
    · obtain ⟨id, hid⟩ := hids.nodes n hn
      exact run_node (n := serializeNode n) hid
  show runMembers (Http.graphFields parse) [] _ _ = _
  refine (runMembers_field rfl hroot).trans ?_
  refine (runMembers_field rfl hnodes).trans ?_
  refine (runMembers_last rfl).trans ?_
  show (((Http.edge parse).runItems ["edges"] [] _).map some).map _ = _
  rw [PlaybookDraft.graph, List.map_map]
  show _ = ((Http.edge parse).runItems ["edges"] []
    (d.edges.map (PlaybookEdge.toDoc ∘ serializeEdge))).map _
  cases (Http.edge parse).runItems ["edges"] []
    (d.edges.map (PlaybookEdge.toDoc ∘ serializeEdge)) <;> rfl

theorem run_graph (hids : IdsParse parse d) (hd : d.Complete)
    (horders : ∀ e ∈ d.edges, OrderFits e.sortOrder) :
    (Http.graphInput parse).run [] (Http.graphInput parse).zero d.graph.toDoc =
      .ok (received parse d) := by
  rw [run_graph_eq hids hd, runItems_map fun e he => ?_]
  · rfl
  · rw [run_edge_of_draft hids hd he, (run_of_orderFits (horders e he)).1]
    rfl

/-- A graph that is read has sort orders that were read. -/
theorem orders_of_run_graph (hids : IdsParse parse d) (hd : d.Complete) {req : Http.GraphInput}
    (h : (Http.graphInput parse).run [] (Http.graphInput parse).zero d.graph.toDoc = .ok req) :
    ∀ e ∈ d.edges, ∃ edge ∈ req.toGraph.edges, ∃ path,
      int.run path 0 (parseSortOrder e.sortOrder).toDoc = .ok edge.sortOrder := by
  intro e he
  rw [run_graph_eq hids hd] at h
  obtain ⟨edges, hedges, rfl⟩ := JsonText.ok_of_map h
  obtain ⟨v, hv, hrun⟩ := exists_of_runItems hedges _ (List.mem_map_of_mem he)
  rw [run_edge_of_draft hids hd he] at hrun
  obtain ⟨z, hz, rfl⟩ := JsonText.ok_of_map hrun
  exact ⟨_, List.mem_map_of_mem hv, _, hz⟩

end

end Interbellum
