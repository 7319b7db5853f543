import Interbellum.Digraph.Loop
import Interbellum.Domain.Graph

/-!
# The search for cycles

`detectCycles` keeps its own stack, and nothing bounds its loops. They end for every graph, and
what holds before every iteration is enough to show that the scan of the stack finds its target
and that every node it flags lies on a cycle.

* `detectCycles_runs`: the iterations of the search, from its beginning to its end.
-/

namespace Interbellum

open Interbellum.Digraph (Arc Config Next Runs succs)
open Interbellum.Graph (detectCycles)
open Relation (TransGen)

/-- `detectCycles` runs through at most twice as many iterations as there are nodes and entries of
adjacency lists, and returns what it has flagged at the end. It examines no entry twice. Before
each iteration the nodes of the stack are different and the grey ones, each frame is a successor
of the one below it, and no successor of a black node is white; the scan for a grey successor
goes down to its frame and no further; and every node flagged lies on a cycle. -/
theorem detectCycles_runs (nodes : List Node) (adjacency : List (UUID × UUID)) :
    (∃ n c, Runs (succs adjacency) (nodes.map Node.id) n c ∧ c.Done) ∧
    (∀ n c, Runs (succs adjacency) (nodes.map Node.id) n c →
      n ≤ 2 * (nodes.length + adjacency.length) ∧
      (c.Done ∨ ∃ c', Next (succs adjacency) c c') ∧
      (c.Done → detectCycles nodes adjacency =
        (nodes.filter fun node => node.id ∈ c.search.inCycle).map
          fun node => .ofNode node.id .cycleDetected) ∧
      (c.examined.Nodup ∧ ∀ e ∈ c.examined, e.2 < (succs adjacency e.1).length) ∧
      ((c.search.stack.map Digraph.Frame.node).Nodup ∧
        (∀ id, c.search.colour id = .grey ↔ id ∈ c.search.stack.map Digraph.Frame.node) ∧
        c.search.stack.IsChain (fun above below => above.node ∈ succs adjacency below.node) ∧
        ∀ id, c.search.colour id = .black → ∀ next ∈ succs adjacency id,
          c.search.colour next ≠ .white) ∧
      (∀ top rest next, c.search.stack = top :: rest →
        (succs adjacency top.node)[top.next]? = some next → c.search.colour next = .grey →
        ∃ above frame below, c.search.stack = above ++ frame :: below ∧ frame.node = next ∧
          (∀ f ∈ above, f.node ≠ next) ∧ (c.search.step (succs adjacency)).inCycle =
            next :: (above.map Digraph.Frame.node ++ [next]) ++ c.search.inCycle) ∧
      ∀ id ∈ c.search.inCycle, TransGen (Arc adjacency) id id) ∧
    ∀ issue ∈ detectCycles nodes adjacency, ∃ id, issue = .ofNode id .cycleDetected ∧
      TransGen (Arc adjacency) id id := by
  refine ⟨Digraph.exists_done adjacency _, fun n c h => ?_, fun issue hissue => ?_⟩
  · have hinv := h.inv
    have hexamined := h.examined_once
    refine ⟨?_, c.next_or_done _, fun hdone => ?_, ⟨hexamined.nodup, hexamined.entry⟩,
      ⟨hinv.nodup, hinv.grey, hinv.chain, hinv.black⟩, fun top rest next => h.scan, fun id hid => ?_⟩
    · have hbound := h.bound
      rw [List.length_map] at hbound
      omega
    · rw [h.search_eq hdone]
      rfl
    · have hmarked := hinv.marked id hid
      simpa only [Digraph.mem_succs] using hmarked
  · obtain ⟨node, hnode, rfl⟩ := List.mem_map.mp hissue
    have hmarked := of_decide_eq_true (List.mem_filter.mp hnode).2
    exact ⟨node.id, rfl, Digraph.search_inCycle_sound hmarked⟩

end Interbellum
