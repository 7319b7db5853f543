import Mathlib.Data.Prod.Lex
import Mathlib.Order.WithBot
import Mathlib.Data.String.Basic
import Interbellum.Digraph.FirstPaths
import Interbellum.Domain.Graph

/-!
# The problems validation reports

Which problems `Graph.validate` finds in a graph that cannot be published, one kind at a
time, and in which order it lists them.

* `cycles_reported_iff`: when every node on a cycle is reported.
* `other_issues_exact`: the other problems, each once, in an order of their own.
-/

namespace Interbellum

open Interbellum.Digraph

namespace Graph

variable {g : Graph}

/-- Some edge that is not dangling leads from `a` to `b`. -/
def Connects (g : Graph) (a b : UUID) : Prop :=
  ∃ e ∈ g.edges, g.joined e = true ∧ e.fromNodeID = a ∧ e.toNodeID = b

theorem arc_eq_connects : Arc g.arcs = g.Connects := by
  ext a b
  exact arc_iff

/-! ## What is reported -/

theorem mem_rootIssues {i : ValidationIssue} : i ∈ g.rootIssues ↔
    g.rootNodeID = none ∧ i = ⟨none, none, .missingRoot⟩ ∨
      ∃ root, g.rootNodeID = some root ∧ (∀ n ∈ g.nodes, n.id ≠ root) ∧
        i = .ofNode root .danglingReference := by
  unfold rootIssues
  cases hr : g.rootNodeID with
  | none => simp
  | some root => by_cases hn : g.hasNode root = true <;> simp_all [hasNode]

theorem mem_edgeIssues {i : ValidationIssue} : i ∈ g.edgeIssues ↔
    ∃ e ∈ g.edges, g.joined e = false ∧ i = .ofEdge e.id .danglingReference := by
  simp only [edgeIssues, List.mem_map, List.mem_filter, Bool.not_eq_true', and_assoc]
  exact exists_congr fun e => and_congr_right fun _ => and_congr_right fun _ => eq_comm

theorem outDegree_pos {id : UUID} : 0 < g.outDegree id ↔ ∃ b, g.Connects id b := by
  rw [outDegree, List.length_pos_iff_exists_mem, ← arc_eq_connects]
  simp only [mem_succs]

theorem mem_kindIssues {n : Node} {i : ValidationIssue} : i ∈ g.kindIssues n ↔
    n.kind = .decision ∧ (∀ b, ¬ g.Connects n.id b) ∧
      i = .ofNode n.id .decisionNodeWithoutEdges ∨
    n.kind = .decision ∧ n.terminalResolution ≠ none ∧ i = .ofNode n.id .decisionWithResolution ∨
    n.kind = .terminal ∧ (∃ b, g.Connects n.id b) ∧ i = .ofNode n.id .terminalNodeWithEdges ∨
    n.kind = .terminal ∧ (n.terminalResolution = none ∨ n.terminalResolution = some "") ∧
      i = .ofNode n.id .terminalMissingResolution := by
  have hzero : g.outDegree n.id = 0 ↔ ∀ b, ¬ g.Connects n.id b := by
    rw [← not_exists, ← outDegree_pos, Nat.pos_iff_ne_zero, not_not]
  unfold kindIssues
  rw [← hzero, ← outDegree_pos]
  cases n.kind with
  | decision => simp [apply_ite (i ∈ ·)]
  | terminal => simp [apply_ite (i ∈ ·)]
  | unknown raw => simp

theorem mem_detectCycles {i : ValidationIssue} : i ∈ detectCycles g.nodes g.arcs ↔
    ∃ n ∈ g.nodes, n.id ∈ (search g.arcs (g.nodes.map Node.id)).inCycle ∧
      i = .ofNode n.id .cycleDetected := by
  simp only [detectCycles, List.mem_map, List.mem_filter, decide_eq_true_eq, and_assoc]
  exact exists_congr fun n => and_congr_right fun _ => and_congr_right fun _ => eq_comm

theorem mem_reachIssues {i : ValidationIssue} : i ∈ g.reachIssues ↔
    ∃ root, g.rootNodeID = some root ∧ (∃ n ∈ g.nodes, n.id = root) ∧ ∃ n ∈ g.nodes,
      ¬ Relation.ReflTransGen g.Connects root n.id ∧ i = .ofNode n.id .unreachableFromRoot := by
  unfold reachIssues
  rw [← arc_eq_connects]
  cases hr : g.rootNodeID with
  | none => simp
  | some root =>
    simp only [Option.some.injEq, exists_eq_left', ← hasNode_iff]
    by_cases hn : g.hasNode root = true
    · simp only [hn, if_true, true_and, detectUnreachable, List.mem_map, List.mem_filter,
        mem_bfs_iff, decide_eq_true_eq, and_assoc]
      exact exists_congr fun n => and_congr_right fun _ => and_congr_right fun _ => eq_comm
    · simp [hn]

/-- The publish-time rules and how a graph can break them, cycles apart. -/
inductive Problem (g : Graph) : ValidationIssue → Prop
  | missingRoot (h : g.rootNodeID = none) : Problem g ⟨none, none, .missingRoot⟩
  | danglingRoot {root : UUID} (h : g.rootNodeID = some root) (hroot : ∀ n ∈ g.nodes, n.id ≠ root) :
      Problem g (.ofNode root .danglingReference)
  | danglingEdge {e : Edge} (he : e ∈ g.edges) (h : g.joined e = false) :
      Problem g (.ofEdge e.id .danglingReference)
  | withoutEdges {n : Node} (hn : n ∈ g.nodes) (hkind : n.kind = .decision)
      (h : ∀ b, ¬ g.Connects n.id b) : Problem g (.ofNode n.id .decisionNodeWithoutEdges)
  | withResolution {n : Node} (hn : n ∈ g.nodes) (hkind : n.kind = .decision)
      (h : n.terminalResolution ≠ none) : Problem g (.ofNode n.id .decisionWithResolution)
  | withEdges {n : Node} (hn : n ∈ g.nodes) (hkind : n.kind = .terminal)
      (h : ∃ b, g.Connects n.id b) : Problem g (.ofNode n.id .terminalNodeWithEdges)
  | missingResolution {n : Node} (hn : n ∈ g.nodes) (hkind : n.kind = .terminal)
      (h : n.terminalResolution = none ∨ n.terminalResolution = some "") :
      Problem g (.ofNode n.id .terminalMissingResolution)
  | unreachable {root : UUID} {n : Node} (h : g.rootNodeID = some root)
      (hroot : ∃ m ∈ g.nodes, m.id = root) (hn : n ∈ g.nodes)
      (hreach : ¬ Relation.ReflTransGen g.Connects root n.id) :
      Problem g (.ofNode n.id .unreachableFromRoot)

theorem Problem.reason_ne {i : ValidationIssue} (h : g.Problem i) : i.reason ≠ .cycleDetected := by
  cases h <;> exact fun he => nomatch he

theorem mem_validate {i : ValidationIssue} : i ∈ g.validate ↔
    g.Problem i ∨ i ∈ detectCycles g.nodes g.arcs := by
  simp only [validate, sortIssues, List.mem_insertionSort, List.mem_append, List.mem_flatMap]
  constructor
  · rintro ((((h | h) | ⟨n, hn, h⟩) | h) | h)
    · rcases mem_rootIssues.mp h with ⟨hr, rfl⟩ | ⟨root, hr, hroot, rfl⟩
      · exact .inl (.missingRoot hr)
      · exact .inl (.danglingRoot hr hroot)
    · obtain ⟨e, he, hjoined, rfl⟩ := mem_edgeIssues.mp h
      exact .inl (.danglingEdge he hjoined)
    · rcases mem_kindIssues.mp h with ⟨hk, h', rfl⟩ | ⟨hk, h', rfl⟩ | ⟨hk, h', rfl⟩ |
        ⟨hk, h', rfl⟩
      · exact .inl (.withoutEdges hn hk h')
      · exact .inl (.withResolution hn hk h')
      · exact .inl (.withEdges hn hk h')
      · exact .inl (.missingResolution hn hk h')
    · exact .inr h
    · obtain ⟨root, hr, hroot, n, hn, hreach, rfl⟩ := mem_reachIssues.mp h
      exact .inl (.unreachable hr hroot hn hreach)
  · rintro (h | h)
    · cases h with
      | missingRoot h => exact .inl (.inl (.inl (.inl (mem_rootIssues.mpr (.inl ⟨h, rfl⟩)))))
      | danglingRoot h hroot =>
        exact .inl (.inl (.inl (.inl (mem_rootIssues.mpr (.inr ⟨_, h, hroot, rfl⟩)))))
      | danglingEdge he h =>
        exact .inl (.inl (.inl (.inr (mem_edgeIssues.mpr ⟨_, he, h, rfl⟩))))
      | withoutEdges hn hk h =>
        exact .inl (.inl (.inr ⟨_, hn, mem_kindIssues.mpr (.inl ⟨hk, h, rfl⟩)⟩))
      | withResolution hn hk h =>
        exact .inl (.inl (.inr ⟨_, hn, mem_kindIssues.mpr (.inr (.inl ⟨hk, h, rfl⟩))⟩))
      | withEdges hn hk h =>
        exact .inl (.inl (.inr ⟨_, hn, mem_kindIssues.mpr (.inr (.inr (.inl ⟨hk, h, rfl⟩)))⟩))
      | missingResolution hn hk h =>
        exact .inl (.inl (.inr ⟨_, hn, mem_kindIssues.mpr (.inr (.inr (.inr ⟨hk, h, rfl⟩)))⟩))
      | unreachable h hroot hn hreach =>
        exact .inr (mem_reachIssues.mpr ⟨_, h, hroot, _, hn, hreach, rfl⟩)
    · exact .inl (.inr h)

/-- The node is reported to lie on a cycle. -/
def ReportsCycle (g : Graph) (id : UUID) : Prop := .ofNode id .cycleDetected ∈ g.validate

theorem reportsCycle_iff {n : Node} (hn : n ∈ g.nodes) :
    g.ReportsCycle n.id ↔ n.id ∈ (search g.arcs (g.nodes.map Node.id)).inCycle := by
  rw [ReportsCycle, mem_validate, mem_detectCycles]
  constructor
  · rintro (h | ⟨m, -, hm, heq⟩)
    · exact absurd rfl h.reason_ne
    · have hid : n.id = m.id := Option.some.inj (congrArg ValidationIssue.nodeID heq)
      rwa [hid]
  · exact fun h => .inr ⟨n, hn, h, rfl⟩

/-! ## Cycles -/

/-- The node is on a loop that an edge closes back to a first path: one that starts at a
node and follows edges, none of which could be replaced by an earlier one in the order of
`Nodes` and `Edges`. -/
def FirstLoop (g : Graph) (id : UUID) : Prop :=
  Digraph.FirstLoop (succs g.arcs) (g.nodes.map Node.id) id

/-- Only nodes on cycles are reported, and all of them are when each is on a loop that is
closed back to a first path. -/
theorem cycles_reported_iff (g : Graph) :
    (∀ n ∈ g.nodes, g.ReportsCycle n.id → Relation.TransGen g.Connects n.id n.id) ∧
    ((∀ n ∈ g.nodes, g.ReportsCycle n.id ↔ Relation.TransGen g.Connects n.id n.id) ↔
      ∀ n ∈ g.nodes, Relation.TransGen g.Connects n.id n.id → g.FirstLoop n.id) := by
  have hsound : ∀ n ∈ g.nodes, g.ReportsCycle n.id → Relation.TransGen g.Connects n.id n.id := by
    intro n hn hreports
    rw [← arc_eq_connects]
    exact search_inCycle_sound ((reportsCycle_iff hn).mp hreports)
  have hfirst : ∀ n ∈ g.nodes, g.ReportsCycle n.id ↔ g.FirstLoop n.id := by
    intro n hn
    rw [reportsCycle_iff hn, search_inCycle_iff]
    rfl
  refine ⟨hsound, ?_, ?_⟩
  · intro hall n hn hcycle
    exact (hfirst n hn).mp ((hall n hn).mpr hcycle)
  · intro hall n hn
    exact ⟨hsound n hn, fun hcycle => (hfirst n hn).mpr (hall n hn hcycle)⟩

/-- Two loops through nodes 1 and 2. Node 3 is on the second one, which closes through
node 2 when that has been searched already. -/
def crossing : Graph where
  rootNodeID := some 1
  nodes := [1, 2, 3].map fun id => ⟨id, .decision, "?", "", none, none⟩
  edges :=
    [⟨10, 1, 2, "a", none, 0⟩, ⟨11, 2, 1, "b", none, 0⟩, ⟨12, 1, 3, "c", none, 0⟩,
     ⟨13, 3, 2, "d", none, 0⟩]

theorem crossing_missed : (crossing.nodes.map Node.id).Nodup ∧
    Relation.TransGen crossing.Connects 3 3 ∧ ¬ crossing.ReportsCycle 3 := by
  have hconnects : ∀ e ∈ crossing.edges, crossing.Connects e.fromNodeID e.toNodeID := by
    intro e he
    refine ⟨e, he, ?_, rfl, rfl⟩
    revert e
    decide
  refine ⟨by decide, ?_, ?_⟩
  · have h32 := hconnects ⟨13, 3, 2, "d", none, 0⟩ (by decide)
    have h21 := hconnects ⟨11, 2, 1, "b", none, 0⟩ (by decide)
    have h13 := hconnects ⟨12, 1, 3, "c", none, 0⟩ (by decide)
    exact ((Relation.TransGen.single h32).tail h21).tail h13
  · show _ ∉ crossing.validate
    decide +kernel

/-! ## The order of the list -/

end Graph

theorem IssueReason.text_injective : Function.Injective IssueReason.text := by
  intro r r' h
  cases r <;> cases r' <;> first | rfl | exact absurd h (by decide)

namespace ValidationIssue

/-- The referenced id; none comes first. -/
def rank (i : ValidationIssue) : WithBot UUID := i.key

/-- What issues are sorted by: the text of the reason, then the id. -/
def sortKey (i : ValidationIssue) : String ×ₗ WithBot UUID := toLex (i.reason.text, i.rank)

theorem sortsBefore_iff {i j : ValidationIssue} :
    i.sortsBefore j = true ↔ i.sortKey ≤ j.sortKey := by
  rw [sortKey, sortKey, Prod.Lex.toLex_le_toLex, sortsBefore]
  by_cases hreason : i.reason = j.reason
  · -- none comes before every id
    rw [if_neg (not_not.mpr hreason), hreason, rank, rank, or_iff_right (lt_irrefl _),
      and_iff_right rfl]
    cases i.key with
    | none => exact iff_of_true rfl bot_le
    | some x =>
      cases j.key with
      | none => exact iff_of_false Bool.false_ne_true (WithBot.not_coe_le_bot x)
      | some y => exact decide_eq_true_iff.trans WithBot.coe_le_coe.symm
  · have htext : i.reason.text ≠ j.reason.text := fun h => hreason (IssueReason.text_injective h)
    simp [hreason, htext]

/-- Of two issues with the same key, the one of a node goes first. -/
def fullKey (i : ValidationIssue) : (String ×ₗ WithBot UUID) ×ₗ Bool :=
  toLex (i.sortKey, i.edgeID.isSome)

/-- The rule that reports an issue, by its number in the source; the two kinds of nodes
share one. -/
def rule (i : ValidationIssue) : Nat :=
  match i.reason with
  | .missingRoot => 1
  | .danglingReference => if i.edgeID = none then 1 else 2
  | .cycleDetected => 5
  | .unreachableFromRoot => 6
  | _ => 3

/-- At most one of the ids is set. -/
def Plain (i : ValidationIssue) : Prop := i.nodeID = none ∨ i.edgeID = none

theorem fullKey_inj {i j : ValidationIssue} (hi : i.Plain) (hj : j.Plain)
    (h : i.fullKey = j.fullKey) : i = j := by
  obtain ⟨hsort, hedge⟩ := Prod.mk.inj (toLex.injective h)
  obtain ⟨htext, hkey⟩ := Prod.mk.inj (toLex.injective hsort)
  have hreason := IssueReason.text_injective htext
  obtain ⟨n, e, r⟩ := i
  obtain ⟨n', e', r'⟩ := j
  simp only [rank, key] at hkey
  simp only [Plain] at hi hj
  simp only at hreason hedge
  cases n <;> cases e <;> cases n' <;> cases e' <;> simp_all

instance : IsTrans ValidationIssue fun i j => i.fullKey ≤ j.fullKey :=
  ⟨fun _ _ _ h h' => h.trans h'⟩

instance : Std.Total fun i j : ValidationIssue => i.fullKey ≤ j.fullKey :=
  ⟨fun _ _ => le_total _ _⟩

end ValidationIssue

/-- Where ties do not matter, sorting by one relation is sorting by another. -/
theorem insertionSort_congr {α : Type} {r r' : α → α → Prop} [DecidableRel r] [DecidableRel r']
    {l : List α} (h : l.Pairwise fun a b => r a b ↔ r' a b) :
    l.insertionSort r = l.insertionSort r' := by
  have hinsert : ∀ (a : α) (l : List α), (∀ b ∈ l, r a b ↔ r' a b) →
      l.orderedInsert r a = l.orderedInsert r' a := by
    intro a l hl
    induction l with
    | nil => rfl
    | cons b l ih =>
      rw [List.orderedInsert_cons, List.orderedInsert_cons,
        ih fun c hc => hl c (List.mem_cons_of_mem _ hc)]
      simp only [hl b List.mem_cons_self]
  induction l with
  | nil => rfl
  | cons a l ih =>
    obtain ⟨ha, hl⟩ := List.pairwise_cons.mp h
    rw [List.insertionSort_cons, List.insertionSort_cons, ih hl]
    exact hinsert a _ fun b hb => ha b ((List.mem_insertionSort r').mp hb)

namespace Graph

variable {g : Graph}

/-- The issues before they are sorted. -/
def found (g : Graph) : List ValidationIssue :=
  g.rootIssues ++ g.edgeIssues ++ g.nodes.flatMap g.kindIssues ++
    detectCycles g.nodes g.arcs ++ g.reachIssues

theorem Problem.plain {i : ValidationIssue} (h : g.Problem i) : i.Plain := by
  cases h with
  | missingRoot => exact .inl rfl
  | danglingEdge => exact .inl rfl
  | _ => exact .inr rfl

theorem kindIssues_nodup (n : Node) : (g.kindIssues n).Nodup := by
  have hpair : ∀ (p q : Prop) [Decidable p] [Decidable q] (r r' : IssueReason), r ≠ r' →
      ((if p then [ValidationIssue.ofNode n.id r] else []) ++
        if q then [ValidationIssue.ofNode n.id r'] else []).Nodup := by
    intro p q _ _ r r' hne
    split <;> split <;> simp [ValidationIssue.ofNode, hne]
  unfold kindIssues
  cases n.kind with
  | decision => exact hpair _ _ _ _ fun h => nomatch h
  | terminal => exact hpair _ _ _ _ fun h => nomatch h
  | unknown raw => exact List.nodup_nil

theorem nodeID_of_mem_kindIssues {n : Node} {i : ValidationIssue} (h : i ∈ g.kindIssues n) :
    i.nodeID = some n.id := by
  rcases mem_kindIssues.mp h with ⟨-, -, rfl⟩ | ⟨-, -, rfl⟩ | ⟨-, -, rfl⟩ | ⟨-, -, rfl⟩ <;> rfl

theorem rule_rootIssues {i : ValidationIssue} (h : i ∈ g.rootIssues) : i.rule = 1 := by
  rcases mem_rootIssues.mp h with ⟨-, rfl⟩ | ⟨root, -, -, rfl⟩ <;> rfl

theorem rule_edgeIssues {i : ValidationIssue} (h : i ∈ g.edgeIssues) : i.rule = 2 := by
  obtain ⟨e, -, -, rfl⟩ := mem_edgeIssues.mp h
  rfl

theorem rule_kindIssues {n : Node} {i : ValidationIssue} (h : i ∈ g.kindIssues n) :
    i.rule = 3 := by
  rcases mem_kindIssues.mp h with ⟨-, -, rfl⟩ | ⟨-, -, rfl⟩ | ⟨-, -, rfl⟩ | ⟨-, -, rfl⟩ <;> rfl

theorem rule_detectCycles {i : ValidationIssue} (h : i ∈ detectCycles g.nodes g.arcs) :
    i.rule = 5 := by
  obtain ⟨n, -, -, rfl⟩ := mem_detectCycles.mp h
  rfl

theorem rule_reachIssues {i : ValidationIssue} (h : i ∈ g.reachIssues) : i.rule = 6 := by
  obtain ⟨root, -, -, n, -, -, rfl⟩ := mem_reachIssues.mp h
  rfl

theorem nodup_ofNode {nodes : List Node} (hnodes : (nodes.map Node.id).Nodup) (p : Node → Bool)
    (reason : IssueReason) :
    ((nodes.filter p).map fun n => ValidationIssue.ofNode n.id reason).Nodup := by
  have hids : ((nodes.filter p).map Node.id).Nodup :=
    hnodes.sublist (List.filter_sublist.map Node.id)
  have hmap := hids.map (f := fun id => ValidationIssue.ofNode id reason)
    fun id id' h => Option.some.inj (congrArg ValidationIssue.nodeID h)
  rwa [List.map_map] at hmap

/-- Different issues, of rules up to this one. -/
def UpToRule (r : Nat) (l : List ValidationIssue) : Prop := l.Nodup ∧ ∀ i ∈ l, i.rule ≤ r

theorem UpToRule.append {r r' : Nat} {l l' : List ValidationIssue} (h : UpToRule r l)
    (hl' : l'.Nodup) (hrule : ∀ i ∈ l', i.rule = r') (hr : r < r') : UpToRule r' (l ++ l') := by
  constructor
  · refine h.1.append hl' ?_
    intro i hi hi'
    have hle := h.2 i hi
    rw [hrule i hi'] at hle
    omega
  · intro i hi
    rcases List.mem_append.mp hi with hi | hi
    · exact (h.2 i hi).trans hr.le
    · exact (hrule i hi).le

/-- No problem is reported twice. -/
theorem found_nodup (hnodes : (g.nodes.map Node.id).Nodup) (hedges : (g.edges.map Edge.id).Nodup) :
    g.found.Nodup := by
  have hroot : g.rootIssues.Nodup := by
    unfold rootIssues
    cases g.rootNodeID with
    | none => exact List.nodup_singleton _
    | some root => by_cases hn : g.hasNode root = true <;> simp [hn]
  have hedge : g.edgeIssues.Nodup := by
    have hids : ((g.edges.filter fun e => !g.joined e).map Edge.id).Nodup :=
      hedges.sublist (List.filter_sublist.map Edge.id)
    have hmap := hids.map (f := fun id => ValidationIssue.ofEdge id .danglingReference)
      fun id id' h => Option.some.inj (congrArg ValidationIssue.edgeID h)
    rwa [List.map_map] at hmap
  have hkind : (g.nodes.flatMap g.kindIssues).Nodup := by
    refine List.nodup_flatMap.mpr ⟨fun n _ => kindIssues_nodup n, ?_⟩
    refine (List.pairwise_map.mp hnodes).imp ?_
    intro n m hne i hi hi'
    have hid := (nodeID_of_mem_kindIssues hi).symm.trans (nodeID_of_mem_kindIssues hi')
    exact hne (Option.some.inj hid)
  have hreach : g.reachIssues.Nodup := by
    unfold reachIssues
    cases g.rootNodeID with
    | none => exact List.nodup_nil
    | some root =>
      by_cases hn : g.hasNode root = true
      · simp only [hn, if_true]
        exact nodup_ofNode hnodes _ _
      · simp [hn]
  have hcycle : (detectCycles g.nodes g.arcs).Nodup := nodup_ofNode hnodes _ _
  have hkindrule : ∀ i ∈ g.nodes.flatMap g.kindIssues, i.rule = 3 := by
    intro i hi
    obtain ⟨n, -, hi⟩ := List.mem_flatMap.mp hi
    exact rule_kindIssues hi
  have hfirst : UpToRule 1 g.rootIssues := ⟨hroot, fun i hi => (rule_rootIssues hi).le⟩
  have hall := (((hfirst.append hedge (fun _ => rule_edgeIssues) (by omega)).append hkind hkindrule
    (by omega)).append hcycle (fun _ => rule_detectCycles) (by omega)).append hreach
    (fun _ => rule_reachIssues) (by omega)
  exact hall.1

/-- Of two issues that tie, the one that is found first sets no edge id. -/
theorem found_ties (hedges : (g.edges.map Edge.id).Nodup) :
    g.found.Pairwise fun i j => i.sortKey ≤ j.sortKey ↔ i.fullKey ≤ j.fullKey := by
  have hnode : ∀ {i j : ValidationIssue}, i.edgeID = none →
      (i.sortKey ≤ j.sortKey ↔ i.fullKey ≤ j.fullKey) := by
    intro i j hi
    rw [ValidationIssue.fullKey, ValidationIssue.fullKey, Prod.Lex.toLex_le_toLex, hi,
      le_iff_lt_or_eq]
    simp
  have hfree : ∀ {i j : ValidationIssue}, i.sortKey ≠ j.sortKey →
      (i.sortKey ≤ j.sortKey ↔ i.fullKey ≤ j.fullKey) := by
    intro i j hne
    rw [ValidationIssue.fullKey, ValidationIssue.fullKey, Prod.Lex.toLex_le_toLex,
      le_iff_lt_or_eq]
    simp [hne]
  have hroot : ∀ i ∈ g.rootIssues, i.edgeID = none := by
    intro i hi
    rcases mem_rootIssues.mp hi with ⟨-, rfl⟩ | ⟨root, -, -, rfl⟩ <;> rfl
  have hlater : ∀ i ∈ g.nodes.flatMap g.kindIssues ++ (detectCycles g.nodes g.arcs ++
      g.reachIssues), i.edgeID = none ∧ i.reason ≠ .danglingReference := by
    intro i hi
    rcases List.mem_append.mp hi with hi | hi
    · obtain ⟨n, -, hi⟩ := List.mem_flatMap.mp hi
      rcases mem_kindIssues.mp hi with ⟨-, -, rfl⟩ | ⟨-, -, rfl⟩ | ⟨-, -, rfl⟩ | ⟨-, -, rfl⟩ <;>
        exact ⟨rfl, fun h => nomatch h⟩
    · rcases List.mem_append.mp hi with hi | hi
      · obtain ⟨n, -, -, rfl⟩ := mem_detectCycles.mp hi
        exact ⟨rfl, fun h => nomatch h⟩
      · obtain ⟨root, -, -, n, -, -, rfl⟩ := mem_reachIssues.mp hi
        exact ⟨rfl, fun h => nomatch h⟩
  have hedge : g.edgeIssues.Pairwise fun i j => i.sortKey ≤ j.sortKey ↔ i.fullKey ≤ j.fullKey := by
    have hids : (g.edges.filter fun e => !g.joined e).Pairwise fun e e' => e.id ≠ e'.id :=
      List.pairwise_map.mp (hedges.sublist (List.filter_sublist.map Edge.id))
    refine List.pairwise_map.mpr (hids.imp ?_)
    intro e e' hne
    refine hfree fun hkey => hne ?_
    exact WithBot.coe_injective (Prod.mk.inj (toLex.injective hkey)).2
  rw [found, List.append_assoc, List.append_assoc, List.append_assoc]
  refine List.pairwise_append.mpr ⟨List.pairwise_of_forall_mem_list fun i hi j _ =>
    hnode (hroot i hi), List.pairwise_append.mpr ⟨hedge, List.pairwise_of_forall_mem_list
      fun i hi j _ => hnode (hlater i hi).1, ?_⟩, fun i hi j _ => hnode (hroot i hi)⟩
  intro i hi j hj
  obtain ⟨e, -, -, rfl⟩ := mem_edgeIssues.mp hi
  refine hfree fun hkey => (hlater j hj).2 ?_
  exact (IssueReason.text_injective (Prod.mk.inj (toLex.injective hkey)).1).symm

/-- The problems are sorted by reason and id, and ties are broken. -/
theorem validate_eq (hedges : (g.edges.map Edge.id).Nodup) :
    g.validate = g.found.insertionSort fun i j => i.fullKey ≤ j.fullKey := by
  refine insertionSort_congr ((found_ties hedges).imp ?_)
  intro i j h
  rw [← h]
  exact ValidationIssue.sortsBefore_iff

/-- The problems that are reported, cycles apart. -/
def otherIssues (g : Graph) : List ValidationIssue :=
  g.validate.filter fun i => i.reason ≠ .cycleDetected

theorem mem_otherIssues {i : ValidationIssue} : i ∈ g.otherIssues ↔ g.Problem i := by
  rw [otherIssues, List.mem_filter, mem_validate, decide_eq_true_eq]
  constructor
  · rintro ⟨h | h, hreason⟩
    · exact h
    · obtain ⟨n, -, -, rfl⟩ := mem_detectCycles.mp h
      exact absurd rfl hreason
  · exact fun h => ⟨.inl h, h.reason_ne⟩

theorem validate_nodup (hnodes : (g.nodes.map Node.id).Nodup)
    (hedges : (g.edges.map Edge.id).Nodup) : g.validate.Nodup :=
  (List.perm_insertionSort _ _).nodup_iff.mpr (found_nodup hnodes hedges)

theorem validate_sorted (hedges : (g.edges.map Edge.id).Nodup) :
    g.validate.Pairwise fun i j => i.fullKey ≤ j.fullKey := by
  rw [validate_eq hedges]
  exact List.pairwise_insertionSort _ _

/-- Problems do not depend on the order of nodes and edges. -/
theorem Problem.congr {g' : Graph} (hroot : g'.rootNodeID = g.rootNodeID)
    (hnodes : ∀ n, n ∈ g'.nodes ↔ n ∈ g.nodes) (hedges : ∀ e, e ∈ g'.edges ↔ e ∈ g.edges)
    {i : ValidationIssue} (h : g.Problem i) : g'.Problem i := by
  have hjoined : g'.joined = g.joined := by
    ext e
    rw [Bool.eq_iff_iff, joined_iff, joined_iff]
    simp only [hnodes]
  have hconnects : g'.Connects = g.Connects := by
    ext a b
    simp only [Connects, hjoined, hedges]
  cases h with
  | missingRoot h => exact .missingRoot (hroot.trans h)
  | danglingRoot h hn => exact .danglingRoot (hroot.trans h) fun n hm => hn n ((hnodes n).mp hm)
  | danglingEdge he h => exact .danglingEdge ((hedges _).mpr he) (hjoined ▸ h)
  | withoutEdges hn hk h => exact .withoutEdges ((hnodes _).mpr hn) hk (hconnects ▸ h)
  | withResolution hn hk h => exact .withResolution ((hnodes _).mpr hn) hk h
  | withEdges hn hk h => exact .withEdges ((hnodes _).mpr hn) hk (hconnects ▸ h)
  | missingResolution hn hk h => exact .missingResolution ((hnodes _).mpr hn) hk h
  | unreachable h hr hn hreach =>
    obtain ⟨m, hm, hid⟩ := hr
    exact .unreachable (hroot.trans h) ⟨m, (hnodes m).mpr hm, hid⟩ ((hnodes _).mpr hn)
      (hconnects ▸ hreach)

/-- For distinct ids, the problems of a graph other than cycles are listed once each, sorted by
reason and then by id, and the list is the same for every order of nodes and edges. -/
theorem other_issues_exact (hnodes : (g.nodes.map Node.id).Nodup)
    (hedges : (g.edges.map Edge.id).Nodup) :
    (∀ i, i ∈ g.otherIssues ↔ g.Problem i) ∧ g.otherIssues.Nodup ∧
      g.validate.Pairwise (fun i j => i.sortsBefore j = true) ∧
      ∀ g' : Graph, g'.rootNodeID = g.rootNodeID → g'.nodes.Perm g.nodes →
        g'.edges.Perm g.edges → g'.otherIssues = g.otherIssues := by
  have hnodup := (validate_nodup hnodes hedges).filter fun i => i.reason ≠ .cycleDetected
  refine ⟨fun i => mem_otherIssues, hnodup, ?_, ?_⟩
  · refine (validate_sorted hedges).imp ?_
    intro i j h
    rw [ValidationIssue.sortsBefore_iff]
    exact Prod.Lex.monotone_fst _ _ h
  · intro g' hroot hperm hperm'
    have hnodes' := (hperm.map Node.id).nodup_iff.mpr hnodes
    have hedges' := (hperm'.map Edge.id).nodup_iff.mpr hedges
    have hnodup' := (validate_nodup hnodes' hedges').filter fun i => i.reason ≠ .cycleDetected
    have hsame : ∀ i, i ∈ g'.otherIssues ↔ i ∈ g.otherIssues := by
      intro i
      rw [mem_otherIssues, mem_otherIssues]
      exact ⟨fun h => h.congr hroot.symm (fun n => (hperm.mem_iff).symm)
        (fun e => (hperm'.mem_iff).symm), fun h => h.congr hroot (fun n => hperm.mem_iff)
        (fun e => hperm'.mem_iff)⟩
    have hsorted := (validate_sorted hedges).filter fun i => i.reason ≠ .cycleDetected
    have hsorted' := (validate_sorted hedges').filter fun i => i.reason ≠ .cycleDetected
    refine List.Perm.eq_of_pairwise ?_ hsorted' hsorted
      ((List.perm_ext_iff_of_nodup hnodup' hnodup).mpr hsame)
    intro i j hi hj hij hji
    exact ValidationIssue.fullKey_inj (mem_otherIssues.mp hi).plain (mem_otherIssues.mp hj).plain
      (le_antisymm hij hji)

/-- The root does not exist, and an edge that has the id of the root leads to no node. -/
def broken : Graph where
  rootNodeID := some 7
  nodes := [⟨1, .decision, "?", "", some "x", none⟩, ⟨2, .terminal, "!", "", none, none⟩]
  edges := [⟨7, 2, 9, "a", none, 0⟩, ⟨8, 2, 1, "b", none, 0⟩]

example : broken.otherIssues =
    [.ofNode 7 .danglingReference, .ofEdge 7 .danglingReference, .ofNode 1 .decisionWithResolution,
     .ofNode 1 .decisionNodeWithoutEdges, .ofNode 2 .terminalMissingResolution,
     .ofNode 2 .terminalNodeWithEdges] := by decide +kernel

theorem other_issues_exact_broken : broken.Problem (.ofEdge 7 .danglingReference) ∧
    { broken with nodes := broken.nodes.reverse, edges := broken.edges.reverse }.otherIssues =
      broken.otherIssues := by
  obtain ⟨hmem, -, -, hperm⟩ := other_issues_exact (g := broken) (by decide) (by decide)
  refine ⟨(hmem _).mp (by decide +kernel), ?_⟩
  exact hperm _ rfl (List.reverse_perm _) (List.reverse_perm _)

end Graph

end Interbellum
