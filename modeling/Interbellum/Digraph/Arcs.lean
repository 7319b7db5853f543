import Mathlib.Data.List.Nodup
import Mathlib.Logic.Relation

/-!
# Directed multigraphs as lists of arcs

A finite directed multigraph is the list of its arcs; parallel arcs and self-loops are
ordinary entries. `succs arcs a` is the adjacency list of `a`, in the order in which the
arcs were given. Reachability and cycles are the closures of `Arc` from Mathlib.

* `exists_succs`: every finite adjacency map is that of a list of arcs.
* `acyclic_of_acc`: a graph whose vertices are accessible against the arcs is acyclic.
-/

namespace Interbellum.Digraph

open Relation

variable {α : Type}

/-- There is an arc from `a` to `b`. -/
def Arc (arcs : List (α × α)) (a b : α) : Prop := (a, b) ∈ arcs

/-- The targets of the arcs leaving `a`, in the order of the arc list. -/
def succs [DecidableEq α] (arcs : List (α × α)) (a : α) : List α :=
  (arcs.filter (fun e => e.1 = a)).map Prod.snd

@[simp] theorem mem_succs [DecidableEq α] {arcs : List (α × α)} {a b : α} :
    b ∈ succs arcs a ↔ Arc arcs a b := by
  simp [succs, Arc]

theorem length_succs [DecidableEq α] (arcs : List (α × α)) (a : α) :
    (succs arcs a).length = arcs.countP (fun e => e.1 = a) := by
  simp [succs, List.countP_eq_length_filter]

theorem succs_star [DecidableEq α] (a b : α) (targets : List α) :
    succs (targets.map fun c => (b, c)) a = if b = a then targets else [] := by
  unfold succs
  split_ifs with hab <;> induction targets <;> simp_all

/-- An adjacency map, which has a list for each of finitely many keys, is that of some arcs. -/
theorem exists_succs [DecidableEq α] {keys : List α} (hkeys : keys.Nodup)
    (adjacency : α → List α) (h : ∀ a ∉ keys, adjacency a = []) :
    ∃ arcs, succs arcs = adjacency := by
  refine ⟨keys.flatMap fun b => (adjacency b).map fun c => (b, c), funext fun a => ?_⟩
  have hkeysOf : ∀ keys : List α, keys.Nodup →
      succs (keys.flatMap fun b => (adjacency b).map fun c => (b, c)) a =
        if a ∈ keys then adjacency a else [] := by
    intro keys hkeys
    induction keys with
    | nil => rfl
    | cons b keys ih =>
      obtain ⟨hb, hkeys⟩ := List.nodup_cons.mp hkeys
      have happend : ∀ x y, succs (x ++ y) a = succs x a ++ succs y a := by simp [succs]
      rw [List.flatMap_cons, happend, succs_star, ih hkeys]
      by_cases hab : b = a
      · subst hab
        rw [if_pos rfl, if_neg hb, if_pos List.mem_cons_self, List.append_nil]
      · have hmem : a ∈ b :: keys ↔ a ∈ keys := by simp [Ne.symm hab]
        simp only [if_neg hab, List.nil_append, hmem]
  rw [hkeysOf keys hkeys]
  split_ifs with ha
  · rfl
  · exact (h a ha).symm

/-- No vertex can be reached from itself along one or more arcs. -/
def Acyclic (arcs : List (α × α)) : Prop := ∀ a, ¬ TransGen (Arc arcs) a a

theorem not_rel_self_of_acc {r : α → α → Prop} {a : α} (h : Acc r a) : ¬ r a a := by
  induction h with
  | intro x _ ih => exact fun hx => ih x hx hx

theorem acyclic_of_acc {arcs : List (α × α)}
    (h : ∀ a b, Arc arcs a b → Acc (fun c d => Arc arcs d c) a) : Acyclic arcs := by
  intro a ha
  obtain ⟨b, hab⟩ : ∃ b, Arc arcs a b := by
    obtain ⟨b, hab, _⟩ := TransGen.head'_iff.mp ha
    exact ⟨b, hab⟩
  have hacc : Acc (TransGen (fun c d => Arc arcs d c)) a := (h a b hab).transGen
  have hswap : TransGen (fun c d => Arc arcs d c) a a := by
    rw [← transGen_swap] at ha
    exact ha
  exact not_rel_self_of_acc hacc hswap

end Interbellum.Digraph
