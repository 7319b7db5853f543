import Mathlib.Data.List.Sort
import Interbellum.Domain.Playbook
import Interbellum.Digraph.DepthFirst
import Interbellum.Digraph.BreadthFirst

/-!
# Publish-time graph validation

`Graph.validate` returns every problem found in a graph, and the empty list (`nil` in the
source) when the graph may be published. The adjacency map of the source is the list of
arcs of the edges whose two endpoints exist; an edge with a missing endpoint is reported and
left out of it.
-/

namespace Interbellum

open Interbellum.Digraph

inductive IssueReason where
  | missingRoot
  | danglingReference
  | unreachableFromRoot
  | cycleDetected
  | decisionNodeWithoutEdges
  | terminalNodeWithEdges
  | terminalMissingResolution
  | decisionWithResolution
  deriving DecidableEq, Repr

def IssueReason.text : IssueReason → String
  | .missingRoot => "missing_root"
  | .danglingReference => "dangling_reference"
  | .unreachableFromRoot => "unreachable_from_root"
  | .cycleDetected => "cycle_detected"
  | .decisionNodeWithoutEdges => "decision_node_without_edges"
  | .terminalNodeWithEdges => "terminal_node_with_edges"
  | .terminalMissingResolution => "terminal_node_missing_resolution"
  | .decisionWithResolution => "decision_node_with_resolution"

structure ValidationIssue where
  nodeID : Option UUID
  edgeID : Option UUID
  reason : IssueReason
  deriving DecidableEq, Repr

abbrev AppError := Error ValidationIssue

namespace ValidationIssue

def ofNode (id : UUID) (reason : IssueReason) : ValidationIssue := ⟨some id, none, reason⟩

def ofEdge (id : UUID) (reason : IssueReason) : ValidationIssue := ⟨none, some id, reason⟩

/-- The referenced id an issue is sorted by; none sorts first, as the empty string does. -/
def key (i : ValidationIssue) : Option UUID := i.nodeID.or i.edgeID

/-- Not `b` before `a` in the order by reason text and then by id. -/
def sortsBefore (a b : ValidationIssue) : Bool :=
  if a.reason ≠ b.reason then a.reason.text < b.reason.text
  else match a.key, b.key with
    | none, _ => true
    | some _, none => false
    | some x, some y => x ≤ y

end ValidationIssue

/-- A stable sort, as `sort.SliceStable`. -/
def sortIssues (issues : List ValidationIssue) : List ValidationIssue :=
  issues.insertionSort (fun a b => a.sortsBefore b)

namespace Graph

/-- Membership in `nodesByID`. -/
def hasNode (g : Graph) (id : UUID) : Bool := g.nodes.any (fun n => n.id = id)

def rootIssues (g : Graph) : List ValidationIssue :=
  match g.rootNodeID with
  | none => [⟨none, none, .missingRoot⟩]
  | some root => if g.hasNode root then [] else [.ofNode root .danglingReference]

def joined (g : Graph) (e : Edge) : Bool := g.hasNode e.fromNodeID && g.hasNode e.toNodeID

def edgeIssues (g : Graph) : List ValidationIssue :=
  (g.edges.filter (fun e => !g.joined e)).map fun e => .ofEdge e.id .danglingReference

/-- The entries of the adjacency map, each with its key, in the order they are appended. -/
def arcs (g : Graph) : List (UUID × UUID) :=
  (g.edges.filter g.joined).map fun e => (e.fromNodeID, e.toNodeID)

def outDegree (g : Graph) (id : UUID) : Nat := (succs g.arcs id).length

/-- The node kind rules: decisions need choices and no resolution, terminals need a
resolution and no choices. -/
def kindIssues (g : Graph) (n : Node) : List ValidationIssue :=
  match n.kind with
  | .decision =>
    (if g.outDegree n.id = 0 then [.ofNode n.id .decisionNodeWithoutEdges] else []) ++
    (if n.terminalResolution ≠ none then [.ofNode n.id .decisionWithResolution] else [])
  | .terminal =>
    (if g.outDegree n.id > 0 then [.ofNode n.id .terminalNodeWithEdges] else []) ++
    (if n.terminalResolution = none ∨ n.terminalResolution = some "" then
      [.ofNode n.id .terminalMissingResolution] else [])
  | .unknown _ => []

def detectCycles (nodes : List Node) (adjacency : List (UUID × UUID)) : List ValidationIssue :=
  let inCycle := (search adjacency (nodes.map Node.id)).inCycle
  (nodes.filter (fun n => n.id ∈ inCycle)).map fun n => .ofNode n.id .cycleDetected

def detectUnreachable (nodes : List Node) (adjacency : List (UUID × UUID)) (root : UUID) :
    List ValidationIssue :=
  let seen := bfs adjacency root
  (nodes.filter (fun n => n.id ∉ seen)).map fun n => .ofNode n.id .unreachableFromRoot

/-- Reachability is skipped when there is no usable root. -/
def reachIssues (g : Graph) : List ValidationIssue :=
  match g.rootNodeID with
  | none => []
  | some root => if g.hasNode root then detectUnreachable g.nodes g.arcs root else []

def validate (g : Graph) : List ValidationIssue :=
  sortIssues (g.rootIssues ++ g.edgeIssues ++ g.nodes.flatMap g.kindIssues ++
    detectCycles g.nodes g.arcs ++ g.reachIssues)

end Graph

def validationError (issues : List ValidationIssue) : AppError :=
  { code := .invalidPlaybookGraph
    format := "playbook graph is not valid for publishing (%d problem(s) found)"
    args := [.int issues.length]
    details := issues }

/-! ## What validation decides -/

namespace Graph

/-- Some edge leads from `a` to `b`. -/
def Leads (g : Graph) (a b : UUID) : Prop :=
  ∃ e ∈ g.edges, e.fromNodeID = a ∧ e.toNodeID = b

/-- The publish-time rules: a usable root, no dangling edge, the rules for the two node
kinds, and every node reachable from the root along a graph without directed cycles. -/
structure Publishable (g : Graph) : Prop where
  root : ∃ root, g.rootNodeID = some root ∧ ∃ n ∈ g.nodes, n.id = root
  endpoints : ∀ e ∈ g.edges, (∃ n ∈ g.nodes, n.id = e.fromNodeID) ∧
    ∃ n ∈ g.nodes, n.id = e.toNodeID
  decision : ∀ n ∈ g.nodes, n.kind = .decision →
    (∃ e ∈ g.edges, e.fromNodeID = n.id) ∧ n.terminalResolution = none
  terminal : ∀ n ∈ g.nodes, n.kind = .terminal →
    (∀ e ∈ g.edges, e.fromNodeID ≠ n.id) ∧
      ∃ resolution, n.terminalResolution = some resolution ∧ resolution ≠ ""
  reachable : ∀ n ∈ g.nodes, ∃ root, g.rootNodeID = some root ∧
    Relation.ReflTransGen g.Leads root n.id
  acyclic : ∀ id, ¬ Relation.TransGen g.Leads id id

/-- The root and the ends of the edges are among the nodes. -/
structure Closed (g : Graph) : Prop where
  root : ∀ root, g.rootNodeID = some root → ∃ n ∈ g.nodes, n.id = root
  edges : ∀ e ∈ g.edges, (∃ n ∈ g.nodes, n.id = e.fromNodeID) ∧ ∃ n ∈ g.nodes, n.id = e.toNodeID

variable {g : Graph}

theorem hasNode_iff {id : UUID} : g.hasNode id = true ↔ ∃ n ∈ g.nodes, n.id = id := by
  simp [hasNode]

theorem joined_iff {e : Edge} : g.joined e = true ↔
    (∃ n ∈ g.nodes, n.id = e.fromNodeID) ∧ ∃ n ∈ g.nodes, n.id = e.toNodeID := by
  simp only [joined, Bool.and_eq_true, hasNode_iff]

theorem arc_iff {a b : UUID} : Arc g.arcs a b ↔
    ∃ e ∈ g.edges, g.joined e = true ∧ e.fromNodeID = a ∧ e.toNodeID = b := by
  simp only [Arc, arcs, List.mem_map, List.mem_filter, Prod.mk.injEq, and_assoc]

theorem rootIssues_nil_iff : g.rootIssues = [] ↔
    ∃ root, g.rootNodeID = some root ∧ ∃ n ∈ g.nodes, n.id = root := by
  unfold rootIssues
  cases hr : g.rootNodeID with
  | none => simp
  | some root =>
    simp only [ite_eq_left_iff, List.cons_ne_self, imp_false, not_not, hasNode_iff,
      Option.some.injEq, exists_eq_left']

theorem edgeIssues_nil_iff : g.edgeIssues = [] ↔ ∀ e ∈ g.edges, g.joined e = true := by
  simp [edgeIssues, List.filter_eq_nil_iff]

/-- Without dangling edges the adjacency map describes all edges. -/
theorem arc_iff_leads (h : ∀ e ∈ g.edges, g.joined e = true) : Arc g.arcs = g.Leads := by
  funext a b
  refine propext (arc_iff.trans ?_)
  constructor
  · rintro ⟨e, he, -, hab⟩
    exact ⟨e, he, hab⟩
  · rintro ⟨e, he, hab⟩
    exact ⟨e, he, h e he, hab⟩

theorem outDegree_pos_iff (h : ∀ e ∈ g.edges, g.joined e = true) {id : UUID} :
    0 < g.outDegree id ↔ ∃ e ∈ g.edges, e.fromNodeID = id := by
  rw [outDegree, List.length_pos_iff_exists_mem]
  constructor
  · rintro ⟨b, hb⟩
    obtain ⟨e, he, -, hab⟩ := arc_iff.mp (mem_succs.mp hb)
    exact ⟨e, he, hab.1⟩
  · rintro ⟨e, he, hid⟩
    exact ⟨e.toNodeID, mem_succs.mpr (arc_iff.mpr ⟨e, he, h e he, hid, rfl⟩)⟩

theorem kindIssues_nil_iff (h : ∀ e ∈ g.edges, g.joined e = true) {n : Node} :
    g.kindIssues n = [] ↔
      (n.kind = .decision → (∃ e ∈ g.edges, e.fromNodeID = n.id) ∧ n.terminalResolution = none) ∧
      (n.kind = .terminal → (∀ e ∈ g.edges, e.fromNodeID ≠ n.id) ∧
        ∃ resolution, n.terminalResolution = some resolution ∧ resolution ≠ "") := by
  have hpos := @outDegree_pos_iff g h n.id
  unfold kindIssues
  cases hk : n.kind with
  | decision =>
    rw [List.append_eq_nil_iff, ← hpos]
    simp [Nat.pos_iff_ne_zero]
  | terminal =>
    have hnone : (∀ e ∈ g.edges, e.fromNodeID ≠ n.id) ↔ ¬ 0 < g.outDegree n.id := by
      rw [hpos]
      simp only [not_exists, not_and]
    rw [List.append_eq_nil_iff, hnone]
    cases hr : n.terminalResolution <;> simp
  | unknown raw => simp

theorem start_of_arc {a b : UUID} (hab : Arc g.arcs a b) : a ∈ g.nodes.map Node.id := by
  obtain ⟨e, -, hj, ha, -⟩ := arc_iff.mp hab
  obtain ⟨n, hn, hid⟩ := (joined_iff.mp hj).1
  exact List.mem_map.mpr ⟨n, hn, hid.trans ha⟩

theorem detectCycles_nil_iff : detectCycles g.nodes g.arcs = [] ↔ Acyclic g.arcs := by
  rw [← search_acyclic_iff (fun _ _ => start_of_arc)]
  simp only [detectCycles, List.map_eq_nil_iff, List.filter_eq_nil_iff, decide_eq_true_eq]
  constructor
  · intro h
    refine List.eq_nil_iff_forall_not_mem.mpr ?_
    intro id hid
    -- a marked id has an outgoing arc, so it is the id of some node
    obtain ⟨b, hab, -⟩ := Relation.TransGen.head'_iff.mp (search_inCycle_sound hid)
    obtain ⟨n, hn, rfl⟩ := List.mem_map.mp (start_of_arc hab)
    exact h n hn hid
  · intro h n _
    rw [h]
    exact List.not_mem_nil

theorem reachIssues_nil_iff {root : UUID} (hroot : g.rootNodeID = some root)
    (hn : ∃ n ∈ g.nodes, n.id = root) :
    g.reachIssues = [] ↔ ∀ n ∈ g.nodes, Relation.ReflTransGen (Arc g.arcs) root n.id := by
  simp only [reachIssues, hroot, hasNode_iff.mpr hn, if_true, detectUnreachable,
    List.map_eq_nil_iff, List.filter_eq_nil_iff, decide_eq_true_eq, not_not, mem_bfs_iff]

theorem validate_nil_iff_parts : g.validate = [] ↔ g.rootIssues = [] ∧ g.edgeIssues = [] ∧
    (∀ n ∈ g.nodes, g.kindIssues n = []) ∧ detectCycles g.nodes g.arcs = [] ∧
      g.reachIssues = [] := by
  have hsort : ∀ issues, sortIssues issues = [] ↔ issues = [] := by
    intro issues
    rw [← List.length_eq_zero_iff, sortIssues, List.length_insertionSort,
      List.length_eq_zero_iff]
  simp only [validate, hsort, List.append_eq_nil_iff, List.flatMap_eq_nil_iff, and_assoc]

/-- `Validate` returns nil exactly for the graphs that meet the publish-time rules, with
paths and cycles taken along all edges. Repeated node ids do not matter. -/
theorem validate_nil_iff_publishable : g.validate = [] ↔ g.Publishable := by
  rw [validate_nil_iff_parts, rootIssues_nil_iff, edgeIssues_nil_iff, detectCycles_nil_iff]
  constructor
  · rintro ⟨⟨root, hroot, hn⟩, hjoined, hkind, hacyclic, hreach⟩
    have hleads := arc_iff_leads hjoined
    rw [reachIssues_nil_iff hroot hn, hleads] at hreach
    rw [Acyclic, hleads] at hacyclic
    exact {
      root := ⟨root, hroot, hn⟩
      endpoints := fun e he => joined_iff.mp (hjoined e he)
      decision := fun n hm => ((kindIssues_nil_iff hjoined).mp (hkind n hm)).1
      terminal := fun n hm => ((kindIssues_nil_iff hjoined).mp (hkind n hm)).2
      reachable := fun n hm => ⟨root, hroot, hreach n hm⟩
      acyclic := hacyclic }
  · intro h
    obtain ⟨root, hroot, hn⟩ := h.root
    have hjoined : ∀ e ∈ g.edges, g.joined e = true := fun e he =>
      joined_iff.mpr (h.endpoints e he)
    have hleads := arc_iff_leads hjoined
    refine ⟨⟨root, hroot, hn⟩, hjoined, ?_, ?_, ?_⟩
    · intro n hm
      exact (kindIssues_nil_iff hjoined).mpr ⟨h.decision n hm, h.terminal n hm⟩
    · rw [Acyclic, hleads]
      exact h.acyclic
    · rw [reachIssues_nil_iff hroot hn, hleads]
      intro n hm
      obtain ⟨root', hroot', hpath⟩ := h.reachable n hm
      rw [hroot] at hroot'
      rwa [Option.some.inj hroot']

/-- The publish-time rules written out. A cycle anywhere counts, also a self-loop and one
that the root does not reach. -/
theorem validate_nil_iff : g.validate = [] ↔
    (∃ root, g.rootNodeID = some root ∧ (∃ n ∈ g.nodes, n.id = root) ∧
      ∀ n ∈ g.nodes, Relation.ReflTransGen g.Leads root n.id) ∧
    (∀ e ∈ g.edges, (∃ n ∈ g.nodes, n.id = e.fromNodeID) ∧ ∃ n ∈ g.nodes, n.id = e.toNodeID) ∧
    (∀ n ∈ g.nodes, n.kind = .decision →
      (∃ e ∈ g.edges, e.fromNodeID = n.id) ∧ n.terminalResolution = none) ∧
    (∀ n ∈ g.nodes, n.kind = .terminal → (∀ e ∈ g.edges, e.fromNodeID ≠ n.id) ∧
      ∃ resolution, n.terminalResolution = some resolution ∧ resolution ≠ "") ∧
    ∀ id, ¬ Relation.TransGen g.Leads id id := by
  rw [validate_nil_iff_publishable]
  constructor
  · intro h
    obtain ⟨root, hroot, hn⟩ := h.root
    refine ⟨⟨root, hroot, hn, ?_⟩, h.endpoints, h.decision, h.terminal, h.acyclic⟩
    intro n hm
    obtain ⟨root', hroot', hpath⟩ := h.reachable n hm
    rw [hroot] at hroot'
    rwa [Option.some.inj hroot']
  · rintro ⟨⟨root, hroot, hn, hreach⟩, hendpoints, hdecision, hterminal, hacyclic⟩
    exact ⟨⟨root, hroot, hn⟩, hendpoints, hdecision, hterminal,
      fun n hm => ⟨root, hroot, hreach n hm⟩, hacyclic⟩

end Graph

end Interbellum
