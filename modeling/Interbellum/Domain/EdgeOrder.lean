import Mathlib.Data.String.Basic
import Interbellum.Domain.Playbook

/-!
# The order of choices

Edges are in order by their sort order and, where it is the same, by their label.

* `sorted_sortEdges`: sorted edges are in order.
* `filter_sortEdges`: edges that agree in both keep the order in which they were loaded.
* `sortEdges_congr`: without such edges, the order in which they were loaded does not matter.
-/

namespace Interbellum.Graph

/-- `a` is listed before `b`, whatever the order in which they were loaded. -/
def Before (a b : Edge) : Prop :=
  a.sortOrder < b.sortOrder ∨ a.sortOrder = b.sortOrder ∧ a.label < b.label

variable {a b c : Edge} {edges edges' : List Edge}

theorem inOrder_iff : inOrder a b = true ↔
    a.sortOrder < b.sortOrder ∨ a.sortOrder = b.sortOrder ∧ a.label ≤ b.label := by
  rw [inOrder, Bool.or_eq_true, Bool.and_eq_true, decide_eq_true_eq, decide_eq_true_eq,
    decide_eq_true_eq]

theorem inOrder_total (a b : Edge) : inOrder a b = true ∨ inOrder b a = true := by
  rw [inOrder_iff, inOrder_iff]
  rcases lt_trichotomy a.sortOrder b.sortOrder with h | h | h
  · exact .inl (.inl h)
  · exact (le_total a.label b.label).imp (fun hle => .inr ⟨h, hle⟩) fun hle => .inr ⟨h.symm, hle⟩
  · exact .inr (.inl h)

theorem inOrder_trans (a b c : Edge) (hab : inOrder a b = true) (hbc : inOrder b c = true) :
    inOrder a c = true := by
  rw [inOrder_iff] at hab hbc ⊢
  rcases hab with hab | ⟨hab, hlabel⟩
  · rcases hbc with hbc | ⟨hbc, -⟩
    · exact .inl (hab.trans hbc)
    · exact .inl (hbc ▸ hab)
  · rcases hbc with hbc | ⟨hbc, hlabel'⟩
    · exact .inl (hab ▸ hbc)
    · exact .inr ⟨hab.trans hbc, hlabel.trans hlabel'⟩

/-- Two edges are tied when neither is listed before the other. -/
theorem inOrder_antisymm (hab : inOrder a b = true) (hba : inOrder b a = true) :
    a.sortOrder = b.sortOrder ∧ a.label = b.label := by
  rw [inOrder_iff] at hab hba
  rcases hab with hab | ⟨hab, hlabel⟩
  · rcases hba with hba | ⟨hba, -⟩ <;> omega
  · rcases hba with hba | ⟨-, hlabel'⟩
    · omega
    · exact ⟨hab, le_antisymm hlabel hlabel'⟩

theorem not_before_iff : ¬ Before b a ↔ inOrder a b = true := by
  rw [inOrder_iff, Before]
  constructor
  · intro h
    push Not at h
    rcases h.1.lt_or_eq with hlt | heq
    · exact .inl hlt
    · exact .inr ⟨heq, h.2 heq.symm⟩
  · rintro (hlt | ⟨heq, hle⟩) (hlt' | ⟨heq', hlt'⟩)
    · omega
    · omega
    · omega
    · exact absurd hlt' (not_lt.mpr hle)

theorem sorted_sortEdges (edges : List Edge) :
    (sortEdges edges).Pairwise fun a b => inOrder a b = true := by
  rw [sortEdges_eq]
  exact Insertion.sorted_sort inOrder_total inOrder_trans edges

/-- Edges that agree in sort order and label keep their order. -/
theorem filter_sortEdges (order : Int) (label : String) (edges : List Edge) :
    (sortEdges edges).filter (fun e => e.sortOrder = order ∧ e.label = label) =
      edges.filter fun e => e.sortOrder = order ∧ e.label = label := by
  rw [sortEdges_eq]
  refine Insertion.sort_stable (fun a b ha hb => ?_) edges
  obtain ⟨horder, hlabel⟩ := of_decide_eq_true ha
  obtain ⟨horder', hlabel'⟩ := of_decide_eq_true hb
  exact inOrder_iff.mpr (.inr ⟨horder.trans horder'.symm, (hlabel.trans hlabel'.symm).le⟩)

theorem sortEdges_congr (hperm : edges.Perm edges')
    (hties : ∀ a ∈ edges, ∀ b ∈ edges, a.label = b.label → a = b) :
    sortEdges edges = sortEdges edges' := by
  rw [sortEdges_eq, sortEdges_eq]
  exact Insertion.sort_congr inOrder_total inOrder_trans hperm fun a ha b hb hab hba =>
    hties a ha b hb (inOrder_antisymm hab hba).2

/-- Without such edges, each edge is listed before the next one. -/
theorem before_sortEdges (hlabels : (edges.map Edge.label).Nodup) :
    (sortEdges edges).Pairwise Before := by
  have hperm : ((sortEdges edges).map Edge.label).Nodup :=
    ((sortEdges_perm edges).map Edge.label).nodup_iff.mpr hlabels
  refine ((sorted_sortEdges edges).and (List.pairwise_map.mp hperm)).imp ?_
  rintro a b ⟨hab, hne⟩
  rcases inOrder_iff.mp hab with hlt | ⟨heq, hle⟩
  · exact .inl hlt
  · exact .inr ⟨heq, lt_of_le_of_ne hle hne⟩

end Interbellum.Graph
