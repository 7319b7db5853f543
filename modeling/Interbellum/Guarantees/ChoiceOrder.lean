import Interbellum.Domain.EdgeOrder
import Interbellum.Service.InvestigationService

/-!
# Choices in one order

The choices of a node are listed in the same order however its edges were loaded.

* `outgoingEdges_in_order`: the list is sorted, and the same for every order of the edges as long
  as no node has two edges of one label.
-/

namespace Interbellum

open InvestigationService

namespace Graph

/-- No two edges share the node they leave and the label. -/
def LabelsUnique (g : Graph) : Prop := (g.edges.map fun e => (e.fromNodeID, e.label)).Nodup

variable {g : Graph} {nodeID : UUID}

theorem LabelsUnique.leaving (h : g.LabelsUnique) (nodeID : UUID) :
    ((g.edges.filter fun e => e.fromNodeID = nodeID).map Edge.label).Nodup := by
  have hpairs := List.pairwise_map.mp h
  refine List.pairwise_map.mpr ((hpairs.filter _).imp_of_mem ?_)
  intro a b ha hb hne hlabel
  refine hne (Prod.ext ?_ hlabel)
  exact (of_decide_eq_true (List.mem_filter.mp ha).2).trans
    (of_decide_eq_true (List.mem_filter.mp hb).2).symm

theorem outgoingEdges_congr {g' : Graph} (h : g.LabelsUnique) (hperm : g'.edges.Perm g.edges)
    (nodeID : UUID) : g'.outgoingEdges nodeID = g.outgoingEdges nodeID := by
  refine (sortEdges_congr (hperm.symm.filter _) fun a ha b hb hlabel => ?_).symm
  exact List.inj_on_of_nodup_map (h.leaving nodeID) ha hb hlabel

end Graph

/-- The edges that leave a node are listed sorted by sort order and then label, where edges that
agree in both keep the order in which they were loaded. When no node has two edges of one label,
each edge that leaves the node is listed once, before every later one, and the list, like the
choices that are offered, is the same for every order in which the edges were loaded. -/
theorem outgoingEdges_in_order (g : Graph) (nodeID : UUID) :
    ((g.outgoingEdges nodeID).Perm (g.edges.filter fun e => e.fromNodeID = nodeID) ∧
      ((g.outgoingEdges nodeID).Pairwise fun a b => ¬ Graph.Before b a) ∧
      ∀ order label, (g.outgoingEdges nodeID).filter
          (fun e => e.sortOrder = order ∧ e.label = label) =
        (g.edges.filter fun e => e.fromNodeID = nodeID).filter
          fun e => e.sortOrder = order ∧ e.label = label) ∧
    (g.LabelsUnique →
      (g.outgoingEdges nodeID).Pairwise Graph.Before ∧
      (∀ e ∈ g.edges, e.fromNodeID = nodeID → (g.outgoingEdges nodeID).count e = 1) ∧
      ∀ g' : Graph, g'.edges.Perm g.edges → g'.outgoingEdges nodeID = g.outgoingEdges nodeID ∧
        ∀ inv, choicesFor g' inv = choicesFor g inv) := by
  refine ⟨⟨Graph.sortEdges_perm _, ?_, fun order label => Graph.filter_sortEdges order label _⟩, ?_⟩
  · exact (Graph.sorted_sortEdges _).imp Graph.not_before_iff.mpr
  · intro hunique
    have hlabels := hunique.leaving nodeID
    refine ⟨Graph.before_sortEdges hlabels, fun e he hfrom => ?_, fun g' hperm => ⟨?_, fun inv => ?_⟩⟩
    · have hnodup : (g.outgoingEdges nodeID).Nodup :=
        (Graph.sortEdges_perm _).nodup_iff.mpr hlabels.of_map
      exact List.count_eq_one_of_mem hnodup (Graph.mem_outgoingEdges.mpr ⟨he, hfrom⟩)
    · exact Graph.outgoingEdges_congr hunique hperm nodeID
    · unfold choicesFor
      rw [Graph.outgoingEdges_congr hunique hperm]

end Interbellum
