import Interbellum.Invariant.PlaybookOperations

/-!
# Batches of inserts

The nodes and the edges of a graph, inserted one after the other by one transaction. An item
is refused as unstorable, whatever the tables hold, or else by a constraint, or it is written.

* `run_execBatch`: a batch is written as a whole, or stops at its first refused item.
* `Cleared.taken_nodes`, `Cleared.taken_edges`: when all nodes and edges of a graph are
  written to a version that has none.
-/

namespace Interbellum

open PlaybookRepository
open Txn (applyAll)

/-! ## Errors -/

/-- The codes of errors that tell a client what is wrong with its request. -/
def clientCodes : List Code := [.validationFailed, .badRequest, .conflict, .notFound, .versionNotDraft]

def Err.Client (e : Err) : Prop := (translate e).code ∈ clientCodes

instance (e : Err) : Decidable e.Client := inferInstanceAs (Decidable (_ ∈ clientCodes))

/-! ## Batches -/

/-- The violation of a column type comes before those of constraints. -/
theorem run_checked {β : Type} {unstorable : Bool} {violations : Store → List (Bool × Err)}
    {answer : Store → Answer β} {s : Store} {ws : List Write}
    (hclient : ∀ t, ∀ v ∈ violations t, v.2.Client) :
    (unstorable = true → (sql (fun s => .guarded ((unstorable, .other) :: violations s)
      (answer s)) fun err => err).run.run s ws = (.error .other, ws)) ∧
    (unstorable = false → (¬ ∀ v ∈ violations (applyAll ws s), v.1 = false) →
      ∃ e, e.Client ∧ (sql (fun s => .guarded ((unstorable, .other) :: violations s)
        (answer s)) fun err => err).run.run s ws = (.error e, ws)) ∧
    (unstorable = false → (∀ v ∈ violations (applyAll ws s), v.1 = false) →
      (sql (fun s => .guarded ((unstorable, .other) :: violations s)
        (answer s)) fun err => err).run.run s ws =
          ((answer (applyAll ws s)).result.mapError fun err => err,
            ws ++ (answer (applyAll ws s)).writes)) := by
  refine ⟨?_, ?_, ?_⟩
  · rintro rfl
    simp [run_sql, Answer.guarded, Answer.fail, Except.mapError]
  · rintro rfl h
    cases hfind : (violations (applyAll ws s)).find? Prod.fst with
    | none => exact absurd (by simpa using hfind) h
    | some v =>
      refine ⟨v.2, hclient _ v (List.mem_of_find?_eq_some hfind), ?_⟩
      simp [run_sql, Answer.guarded, Answer.fail, Except.mapError, hfind]
  · rintro rfl h
    have hguard : ∀ v ∈ (false, Err.other) :: violations (applyAll ws s), v.1 = false :=
      List.forall_mem_cons.mpr ⟨rfl, h⟩
    simp only [run_sql, Answer.guarded_of_valid _ hguard]

/-- The statement makes one write, unless the item is not storable or does not fit. -/
structure Inserts (statement : Db Unit) (storable : Prop) (fits : Store → Prop) (w : Write) :
    Prop where
  unstorable : ¬ storable → ∀ s ws, statement.run.run s ws = (.error .other, ws)
  refused : storable → ∀ s ws, ¬ fits (applyAll ws s) →
    ∃ e, e.Client ∧ statement.run.run s ws = (.error e, ws)
  accepted : storable → ∀ s ws, fits (applyAll ws s) →
    statement.run.run s ws = (.ok (), ws ++ [w])

theorem inserts_guarded {unstorable : Bool} {violations : Store → List (Bool × Err)}
    {locks : Store → Locks} {w : Write}
    (hclient : ∀ t, ∀ v ∈ violations t, v.2.Client) :
    Inserts (sql (fun s => .guarded ((unstorable, .other) :: violations s)
      ⟨.ok (), locks s, [w]⟩) fun err => err) (unstorable = false)
      (fun t => ∀ v ∈ violations t, v.1 = false) w where
  unstorable := fun h _ _ => (run_checked hclient).1 (by simpa using h)
  refused := fun h _ _ hfits => (run_checked hclient).2.1 h hfits
  accepted := fun h _ _ hfits => (run_checked hclient).2.2 h hfits

theorem Inserts.congr {statement : Db Unit} {storable storable' : Prop}
    {fits fits' : Store → Prop} {w : Write} (h : Inserts statement storable fits w)
    (hstorable : storable ↔ storable') (hfits : ∀ t, fits t ↔ fits' t) :
    Inserts statement storable' fits' w := by
  obtain rfl : storable = storable' := propext hstorable
  obtain rfl : fits = fits' := funext fun t => propext (hfits t)
  exact h

section

variable {α : Type} (storable : α → Prop) (fits : α → Store → Prop) (w : α → Write)

/-- One after the other, the items are storable and fit. -/
def Taken : List α → Store → Prop
  | [], _ => True
  | a :: rest, t => storable a ∧ fits a t ∧ Taken rest (t.write (w a))

/-- The item is the first one that is not taken. -/
def Stops (items : List α) (t : Store) (a : α) : Prop :=
  ∃ pre post, items = pre ++ a :: post ∧ Taken storable fits w pre t ∧
    ¬ (storable a ∧ fits a (applyAll (pre.map w) t))

variable {storable fits w}

theorem taken_append {pre post : List α} {t : Store} :
    Taken storable fits w (pre ++ post) t ↔
      Taken storable fits w pre t ∧ Taken storable fits w post (applyAll (pre.map w) t) := by
  induction pre generalizing t with
  | nil => simp [Taken]
  | cons a rest ih => simp only [List.cons_append, Taken, ih, List.map_cons, Txn.applyAll_cons,
      writable_write, and_assoc]

theorem Stops.cons {a b : α} {rest : List α} {t : Store} (hb : storable b ∧ fits b t)
    (h : Stops storable fits w rest (t.write (w b)) a) :
    Stops storable fits w (b :: rest) t a := by
  obtain ⟨pre, post, rfl, hpre, ha⟩ := h
  exact ⟨b :: pre, post, rfl, ⟨hb.1, hb.2, hpre⟩, ha⟩

theorem Stops.of_unstorable {items pre post : List α} {t : Store} {a : α}
    (hsplit : items = pre ++ a :: post) (hpre : Taken storable fits w pre t)
    (ha : ¬ storable a) : Stops storable fits w items t a :=
  ⟨pre, post, hsplit, hpre, fun hboth => ha hboth.1⟩

theorem Stops.not_taken {items : List α} {t : Store} {a : α}
    (h : Stops storable fits w items t a) : ¬ Taken storable fits w items t := by
  obtain ⟨pre, post, rfl, -, ha⟩ := h
  rw [taken_append]
  exact fun htaken => ha ⟨htaken.2.1, htaken.2.2.1⟩

theorem Stops.unique {items : List α} {t : Store} {a b : α}
    (ha : Stops storable fits w items t a) (hb : Stops storable fits w items t b) : a = b := by
  obtain ⟨pre, post, rfl, hpre, ha⟩ := ha
  obtain ⟨pre', post', he, hpre', hb⟩ := hb
  -- the one that comes earlier is not taken, but would have to be for the other one
  rcases List.append_eq_append_iff.mp he with ⟨l, rfl, hl⟩ | ⟨l, rfl, hl⟩
  · cases l with
    | nil => exact (List.cons.inj hl).1
    | cons c l =>
      obtain ⟨rfl, -⟩ := List.cons.inj hl
      have htaken := (taken_append.mp hpre').2
      exact absurd ⟨htaken.1, htaken.2.1⟩ ha
  · cases l with
    | nil => exact (List.cons.inj hl).1.symm
    | cons c l =>
      obtain ⟨rfl, -⟩ := List.cons.inj hl
      have htaken := (taken_append.mp hpre).2
      exact absurd ⟨htaken.1, htaken.2.1⟩ hb

variable {statement : α → Db Unit}
  (h : ∀ a, Inserts (statement a) (storable a) (fits a) (w a))

include h in
theorem run_execBatch (items : List α) (s : Store) (ws : List Write) :
    Taken storable fits w items (applyAll ws s) ∧
        (execBatch (items.map statement)).run.run s ws = (.ok (), ws ++ items.map w) ∨
      ∃ a e ws', Stops storable fits w items (applyAll ws s) a ∧
        (execBatch (items.map statement)).run.run s ws = (.error e, ws') ∧
          (¬ storable a ∧ e = .other ∨ storable a ∧ e.Client) := by
  induction items generalizing ws with
  | nil => exact .inl ⟨trivial, by simp [execBatch, ExceptT.run_pure, Txn.Body.pure_eq]⟩
  | cons a rest ih =>
    rw [List.map_cons, execBatch, Txn.Body.run_bind_except]
    by_cases hstorable : storable a
    · by_cases hfits : fits a (applyAll ws s)
      · rw [(h a).accepted hstorable s ws hfits]
        have hwrite : applyAll (ws ++ [w a]) s = (applyAll ws s).write (w a) := by simp
        rcases ih (ws ++ [w a]) with ⟨htaken, hrun⟩ | ⟨b, e, ws', hstops, hrun, he⟩
        · rw [hwrite] at htaken
          exact .inl ⟨⟨hstorable, hfits, htaken⟩, by simp [hrun]⟩
        · rw [hwrite] at hstops
          exact .inr ⟨b, e, ws', hstops.cons ⟨hstorable, hfits⟩, hrun, he⟩
      · obtain ⟨e, he, hrun⟩ := (h a).refused hstorable s ws hfits
        rw [hrun]
        exact .inr ⟨a, _, ws, ⟨[], rest, rfl, trivial, fun hboth => hfits hboth.2⟩, rfl,
          .inr ⟨hstorable, he⟩⟩
    · rw [(h a).unstorable hstorable s ws]
      exact .inr ⟨a, _, ws, ⟨[], rest, rfl, trivial, fun hboth => hstorable hboth.1⟩, rfl,
        .inl ⟨hstorable, rfl⟩⟩

end

/-! ## Nodes and edges -/

/-- The node can be represented in its row. -/
def storableNode (n : Node) : Bool :=
  n.kind.valid && storableText n.title && storableText n.description &&
    storableOption n.terminalResolution && storableJson n.metadata

/-- The texts of the row of a playbook can be represented in it. -/
def storableHeader (input : NewPlaybook) : Bool :=
  storableText input.name && storableText input.description && storableText input.alertType

def storableEdge (e : Edge) : Bool :=
  int4 e.sortOrder && storableText e.label && storableOption e.description

/-- No constraint refuses the node. -/
structure NodeFits (id : UUID) (n : Node) (t : Store) : Prop where
  resolution : n.kind = .terminal ↔ n.terminalResolution.isSome
  unused : ∀ r ∈ t.nodes, r.node.id ≠ n.id
  present : t.versionRows id ≠ []

structure EdgeFits (id : UUID) (e : Edge) (t : Store) : Prop where
  unused : ∀ r ∈ t.edges, r.edge.id ≠ e.id
  label : ∀ r ∈ t.edges, r.edge.fromNodeID = e.fromNodeID → r.edge.label ≠ e.label
  present : t.versionRows id ≠ []
  fromNode : ∃ n ∈ t.nodesOf id, n.id = e.fromNodeID
  toNode : ∃ n ∈ t.nodesOf id, n.id = e.toNodeID

theorem inserts_insertNode (id : UUID) (n : Node) :
    Inserts (insertNode id n) (storableNode n = true) (NodeFits id n)
      (.insertNode ⟨id, storedNode n⟩) := by
  refine (inserts_guarded ?_).congr (by simp [storableNode]) ?_
  · intro t v hv
    simp only [List.mem_cons, List.not_mem_nil, or_false] at hv
    rcases hv with rfl | rfl | rfl <;> (dsimp only; decide)
  · intro t
    have hcheck : (decide (n.kind = .terminal) != n.terminalResolution.isSome) = false ↔
        (n.kind = .terminal ↔ n.terminalResolution.isSome) := by
      rw [bne_eq_false_iff_eq, Bool.eq_iff_iff, decide_eq_true_eq]
    simp only [List.forall_mem_cons, List.not_mem_nil, IsEmpty.forall_iff, implies_true,
      and_true, hcheck]
    constructor
    · rintro ⟨hresolution, hunused, hpresent⟩
      exact ⟨hresolution, by simpa using hunused, by simpa using hpresent⟩
    · intro hfits
      exact ⟨hfits.resolution, by simpa using hfits.unused, by simpa using hfits.present⟩

theorem inserts_insertEdge (id : UUID) (e : Edge) :
    Inserts (insertEdge id e) (storableEdge e = true) (EdgeFits id e)
      (.insertEdge ⟨id, e⟩) := by
  refine (inserts_guarded ?_).congr (by simp [storableEdge]) ?_
  · intro t v hv
    simp only [List.mem_cons, List.not_mem_nil, or_false] at hv
    rcases hv with rfl | rfl | rfl | rfl | rfl <;> (dsimp only; decide)
  · intro t
    simp only [List.forall_mem_cons, List.not_mem_nil, IsEmpty.forall_iff, implies_true,
      and_true]
    constructor
    · rintro ⟨hunused, hlabel, hpresent, hfrom, hto⟩
      exact ⟨by simpa using hunused, by simpa using hlabel, by simpa using hpresent,
        by simpa using hfrom, by simpa using hto⟩
    · intro hfits
      exact ⟨by simpa using hfits.unused, by simpa using hfits.label,
        by simpa using hfits.present, by simpa using hfits.fromNode, by simpa using hfits.toNode⟩

/-! ## Graphs -/

def nodeWrite (id : UUID) (n : Node) : Write := .insertNode ⟨id, storedNode n⟩

def edgeWrite (id : UUID) (e : Edge) : Write := .insertEdge ⟨id, e⟩

theorem applyAll_nodeWrites (id : UUID) (nodes : List Node) (t : Store) :
    applyAll (nodes.map (nodeWrite id)) t =
      { t with nodes := t.nodes ++ nodes.map fun n => ⟨id, storedNode n⟩ } := by
  induction nodes generalizing t with
  | nil => simp
  | cons n rest ih => simp [ih, nodeWrite, Store.write]

theorem applyAll_edgeWrites (id : UUID) (edges : List Edge) (t : Store) :
    applyAll (edges.map (edgeWrite id)) t =
      { t with edges := t.edges ++ edges.map fun e => ⟨id, e⟩ } := by
  induction edges generalizing t with
  | nil => simp
  | cons e rest ih => simp [ih, edgeWrite, Store.write]

/-- The node can be written to version `id`, as far as it and other versions go. -/
structure NodeAllowed (t : Store) (id : UUID) (n : Node) : Prop where
  storable : storableNode n = true
  resolution : n.kind = .terminal ↔ n.terminalResolution.isSome
  unused : ∀ r ∈ t.nodes, r.versionID ≠ id → r.node.id ≠ n.id

structure EdgeAllowed (t : Store) (id : UUID) (g : Graph) (e : Edge) : Prop where
  storable : storableEdge e = true
  unused : ∀ r ∈ t.edges, r.versionID ≠ id → r.edge.id ≠ e.id
  fromNode : ∃ n ∈ g.nodes, n.id = e.fromNodeID
  toNode : ∃ n ∈ g.nodes, n.id = e.toNodeID

/-- The choice of an edge: where it starts, and under which label. -/
def Edge.choice (e : Edge) : UUID × String := (e.fromNodeID, e.label)

/-- Nodes with ids of their own only meet the rows that are there. -/
theorem taken_nodes_iff {id : UUID} {nodes : List Node} {u : Store}
    (hpresent : u.versionRows id ≠ []) (hids : (nodes.map Node.id).Nodup) :
    Taken (storableNode · = true) (NodeFits id) (nodeWrite id) nodes u ↔
      ∀ n ∈ nodes, storableNode n = true ∧ (n.kind = .terminal ↔ n.terminalResolution.isSome) ∧
        ∀ r ∈ u.nodes, r.node.id ≠ n.id := by
  induction nodes generalizing u with
  | nil => exact ⟨fun _ _ hn => (List.not_mem_nil hn).elim, fun _ => trivial⟩
  | cons n rest ih =>
    obtain ⟨hn, hrest⟩ := List.nodup_cons.mp hids
    have hrows : ∀ m ∈ rest, (∀ r ∈ (u.write (nodeWrite id n)).nodes, r.node.id ≠ m.id) ↔
        ∀ r ∈ u.nodes, r.node.id ≠ m.id := by
      intro m hm
      have hne : n.id ≠ m.id := fun he => hn (he ▸ List.mem_map_of_mem hm)
      show (∀ r ∈ u.nodes ++ [_], _) ↔ _
      simp only [List.forall_mem_append, List.forall_mem_singleton]
      exact and_iff_left hne
    have hkept : (u.write (nodeWrite id n)).versionRows id ≠ [] := hpresent
    rw [Taken, ih hkept hrest, List.forall_mem_cons]
    constructor
    · rintro ⟨hstorable, hfits, htaken⟩
      refine ⟨⟨hstorable, hfits.resolution, hfits.unused⟩, ?_⟩
      intro m hm
      obtain ⟨hm1, hm2, hm3⟩ := htaken m hm
      exact ⟨hm1, hm2, (hrows m hm).mp hm3⟩
    · rintro ⟨⟨hstorable, hresolution, hunused⟩, hall⟩
      refine ⟨hstorable, ⟨hresolution, hunused, hpresent⟩, ?_⟩
      intro m hm
      obtain ⟨hm1, hm2, hm3⟩ := hall m hm
      exact ⟨hm1, hm2, (hrows m hm).mpr hm3⟩

theorem edgeFits_iff {id : UUID} {g : Graph} {e : Edge} {u : Store}
    (hpresent : u.versionRows id ≠ []) (hnodesOf : u.nodesOf id = g.nodes.map storedNode) :
    EdgeFits id e u ↔ (∀ r ∈ u.edges, r.edge.id ≠ e.id) ∧
      (∀ r ∈ u.edges, r.edge.choice ≠ e.choice) ∧ (∃ n ∈ g.nodes, n.id = e.fromNodeID) ∧
        ∃ n ∈ g.nodes, n.id = e.toNodeID := by
  have hend : ∀ x, (∃ n ∈ u.nodesOf id, n.id = x) ↔ ∃ n ∈ g.nodes, n.id = x := by
    intro x
    rw [hnodesOf]
    simp [storedNode]
  constructor
  · intro hfits
    refine ⟨hfits.unused, ?_, (hend _).mp hfits.fromNode, (hend _).mp hfits.toNode⟩
    exact fun r hr heq => hfits.label r hr (congrArg Prod.fst heq) (congrArg Prod.snd heq)
  · rintro ⟨hunused, hchoice, hfrom, hto⟩
    refine ⟨hunused, ?_, hpresent, (hend _).mpr hfrom, (hend _).mpr hto⟩
    exact fun r hr hfrom hlabel => hchoice r hr (Prod.ext hfrom hlabel)

/-- Edges with ids of their own meet each other in their choices only. -/
theorem taken_edges_iff {id : UUID} {g : Graph} {edges : List Edge} {u : Store}
    (hpresent : u.versionRows id ≠ []) (hnodesOf : u.nodesOf id = g.nodes.map storedNode)
    (hids : (edges.map Edge.id).Nodup) :
    Taken (storableEdge · = true) (EdgeFits id) (edgeWrite id) edges u ↔
      (∀ e ∈ edges, storableEdge e = true ∧ (∀ r ∈ u.edges, r.edge.id ≠ e.id) ∧
        (∀ r ∈ u.edges, r.edge.choice ≠ e.choice) ∧ (∃ n ∈ g.nodes, n.id = e.fromNodeID) ∧
          ∃ n ∈ g.nodes, n.id = e.toNodeID) ∧ (edges.map Edge.choice).Nodup := by
  induction edges generalizing u with
  | nil => exact ⟨fun _ => ⟨fun _ he => (List.not_mem_nil he).elim, .nil⟩, fun _ => trivial⟩
  | cons e rest ih =>
    obtain ⟨he, hrest⟩ := List.nodup_cons.mp hids
    have hkept : (u.write (edgeWrite id e)).versionRows id ≠ [] := hpresent
    have hrows : ∀ (p : EdgeRow → Prop), (∀ r ∈ (u.write (edgeWrite id e)).edges, p r) ↔
        (∀ r ∈ u.edges, p r) ∧ p ⟨id, e⟩ := by
      intro p
      show (∀ r ∈ u.edges ++ [_], p r) ↔ _
      rw [List.forall_mem_append, List.forall_mem_singleton]
    rw [Taken, edgeFits_iff hpresent hnodesOf, ih hkept hnodesOf hrest, List.forall_mem_cons,
      List.map_cons, List.nodup_cons]
    simp only [hrows]
    constructor
    · rintro ⟨hstorable, ⟨hunused, hchoice, hends⟩, hall, hchoices⟩
      refine ⟨⟨⟨hstorable, hunused, hchoice, hends⟩, ?_⟩, ?_, hchoices⟩
      · intro f hf
        obtain ⟨hf1, hf2, hf3, hf4⟩ := hall f hf
        exact ⟨hf1, hf2.1, hf3.1, hf4⟩
      · intro hmem
        obtain ⟨f, hf, hfe⟩ := List.mem_map.mp hmem
        exact (hall f hf).2.2.1.2 hfe.symm
    · rintro ⟨⟨⟨hstorable, hunused, hchoice, hends⟩, hall⟩, hnew, hchoices⟩
      refine ⟨hstorable, ⟨hunused, hchoice, hends⟩, ?_, hchoices⟩
      intro f hf
      obtain ⟨hf1, hf2, hf3, hf4⟩ := hall f hf
      exact ⟨hf1, ⟨hf2, fun heq => he (heq ▸ List.mem_map_of_mem hf)⟩,
        ⟨hf3, fun heq => hnew (heq ▸ List.mem_map_of_mem hf)⟩, hf4⟩

/-- The row of version `id` is `v`, and there is no graph. -/
structure Cleared (id : UUID) (v : Version) (t : Store) : Prop where
  design : Design t
  row : t.versionRows id = [v]
  root : v.rootNodeID = none
  nodes : t.nodeRows id = []
  edges : t.edgeRows id = []

namespace Cleared

variable {id : UUID} {v : Version} {t : Store} (h : Cleared id v t)

include h

theorem present : t.versionRows id ≠ [] := by
  rw [h.row]
  exact List.cons_ne_nil _ _

theorem node_ne {r : NodeRow} (hr : r ∈ t.nodes) : r.versionID ≠ id := by
  intro he
  have hmem : r ∈ t.nodeRows id := List.mem_filter.mpr ⟨hr, decide_eq_true he⟩
  rw [h.nodes] at hmem
  exact List.not_mem_nil hmem

theorem edge_ne {r : EdgeRow} (hr : r ∈ t.edges) : r.versionID ≠ id := by
  intro he
  have hmem : r ∈ t.edgeRows id := List.mem_filter.mpr ⟨hr, decide_eq_true he⟩
  rw [h.edges] at hmem
  exact List.not_mem_nil hmem

theorem taken_nodes {nodes : List Node} (hids : (nodes.map Node.id).Nodup) :
    Taken (storableNode · = true) (NodeFits id) (nodeWrite id) nodes t ↔
      ∀ n ∈ nodes, NodeAllowed t id n := by
  rw [taken_nodes_iff h.present hids]
  constructor
  · intro hall n hn
    obtain ⟨hstorable, hresolution, hunused⟩ := hall n hn
    exact ⟨hstorable, hresolution, fun r hr _ => hunused r hr⟩
  · intro hall n hn
    exact ⟨(hall n hn).storable, (hall n hn).resolution,
      fun r hr => (hall n hn).unused r hr (h.node_ne hr)⟩

omit h in
theorem nodesOf_nodeWrites (g : Graph) {u : Store}
    (hu : u = applyAll (g.nodes.map (nodeWrite id)) t) (hnodes : t.nodeRows id = []) :
    u.nodesOf id = g.nodes.map storedNode := by
  rw [hu, applyAll_nodeWrites, Store.nodesOf, Store.nodeRows, List.filter_append]
  show ((t.nodeRows id) ++ _).map _ = _
  rw [hnodes, List.nil_append, List.filter_eq_self.mpr, List.map_map]
  · rfl
  · intro r hr
    obtain ⟨n, -, rfl⟩ := List.mem_map.mp hr
    exact decide_eq_true rfl

/-- An edge of another version starts at a node of that version. -/
theorem choice_ne {g : Graph} (hnodes : ∀ n ∈ g.nodes, NodeAllowed t id n) {e : Edge}
    (hfrom : ∃ n ∈ g.nodes, n.id = e.fromNodeID) {r : EdgeRow} (hr : r ∈ t.edges) :
    r.edge.choice ≠ e.choice := by
  intro he
  obtain ⟨n, hn, hnid⟩ := hfrom
  obtain ⟨⟨m, hm, hmid⟩, -⟩ := h.design.edge_nodes r hr
  obtain ⟨row, hrow, -, rfl⟩ := mem_nodesOf.mp hm
  have hsame : r.edge.fromNodeID = e.fromNodeID := congrArg Prod.fst he
  exact (hnodes n hn).unused row hrow (h.node_ne hrow) (by rw [hmid, hnid, hsame])

theorem taken_edges {g : Graph} (hnodes : ∀ n ∈ g.nodes, NodeAllowed t id n)
    {edges : List Edge} (hids : (edges.map Edge.id).Nodup) :
    Taken (storableEdge · = true) (EdgeFits id) (edgeWrite id) edges
        (applyAll (g.nodes.map (nodeWrite id)) t) ↔
      (∀ e ∈ edges, EdgeAllowed t id g e) ∧ (edges.map Edge.choice).Nodup := by
  have hedges : (applyAll (g.nodes.map (nodeWrite id)) t).edges = t.edges := by
    rw [applyAll_nodeWrites]
  have hpresent : (applyAll (g.nodes.map (nodeWrite id)) t).versionRows id ≠ [] := by
    rw [applyAll_nodeWrites]
    exact h.present
  rw [taken_edges_iff hpresent (nodesOf_nodeWrites g rfl h.nodes) hids, hedges]
  refine and_congr_left fun _ => ?_
  constructor
  · intro hall e he
    obtain ⟨hstorable, hunused, -, hfrom, hto⟩ := hall e he
    exact ⟨hstorable, fun r hr _ => hunused r hr, hfrom, hto⟩
  · intro hall e he
    have hallowed := hall e he
    exact ⟨hallowed.storable, fun r hr => hallowed.unused r hr (h.edge_ne hr),
      fun r hr => h.choice_ne hnodes hallowed.fromNode hr, hallowed.fromNode, hallowed.toNode⟩

end Cleared

end Interbellum
