import Mathlib.Data.Set.Function
import Interbellum.Domain.Graph

/-!
# Renamed graphs

A graph and a copy of it under other ids: nodes and edges correspond position by position,
and the ends of the edges and the root follow the renaming of the nodes. Paths and cycles
are carried over in both directions, and with them what publishing asks for.

* `Renames.publishable_iff`: a graph can be published exactly when its copy can.
-/

namespace Interbellum

open Relation

namespace Graph

/-- The edge is a copy of the other one, between the renamed ends. -/
structure EdgeCopy (f : UUID → UUID) (e e' : Edge) : Prop where
  fromNodeID : e'.fromNodeID = f e.fromNodeID
  toNodeID : e'.toNodeID = f e.toNodeID
  label : e'.label = e.label
  description : e'.description = e.description
  sortOrder : e'.sortOrder = e.sortOrder

/-- The second graph is the first one under the ids that `f` gives to the nodes. -/
structure Renames (f : UUID → UUID) (g g' : Graph) : Prop where
  inj : Set.InjOn f {id | ∃ n ∈ g.nodes, n.id = id}
  root : g'.rootNodeID = g.rootNodeID.map f
  nodes : g'.nodes = g.nodes.map fun n => { n with id := f n.id }
  edges : List.Forall₂ (EdgeCopy f) g.edges g'.edges

namespace Renames

variable {f : UUID → UUID} {g g' : Graph}

theorem mem_nodes (h : Renames f g g') {n' : Node} :
    n' ∈ g'.nodes ↔ ∃ n ∈ g.nodes, n' = { n with id := f n.id } := by
  rw [h.nodes, List.mem_map]
  exact ⟨fun ⟨n, hn, he⟩ => ⟨n, hn, he.symm⟩, fun ⟨n, hn, he⟩ => ⟨n, hn, he.symm⟩⟩

theorem edge (h : Renames f g g') {e : Edge} (he : e ∈ g.edges) :
    ∃ e' ∈ g'.edges, EdgeCopy f e e' := by
  obtain ⟨k, hk, rfl⟩ := List.mem_iff_getElem.mp he
  have hk' : k < g'.edges.length := h.edges.length_eq ▸ hk
  exact ⟨_, List.getElem_mem hk', (List.forall₂_iff_get.mp h.edges).2 k hk hk'⟩

theorem edge_of (h : Renames f g g') {e' : Edge} (he' : e' ∈ g'.edges) :
    ∃ e ∈ g.edges, EdgeCopy f e e' := by
  obtain ⟨k, hk, rfl⟩ := List.mem_iff_getElem.mp he'
  have hk' : k < g.edges.length := h.edges.length_eq ▸ hk
  exact ⟨_, List.getElem_mem hk', (List.forall₂_iff_get.mp h.edges).2 k hk' hk⟩

theorem leads (h : Renames f g g') {a b : UUID} (hab : g.Leads a b) : g'.Leads (f a) (f b) := by
  obtain ⟨e, he, rfl, rfl⟩ := hab
  obtain ⟨e', he', hcopy⟩ := h.edge he
  exact ⟨e', he', hcopy.fromNodeID, hcopy.toNodeID⟩

/-- What an edge of the copy leads to from a renamed node. -/
theorem leads_from (h : Renames f g g') (hg : g.Closed) {a y : UUID}
    (ha : ∃ n ∈ g.nodes, n.id = a) (hay : g'.Leads (f a) y) :
    ∃ b, (∃ n ∈ g.nodes, n.id = b) ∧ y = f b ∧ g.Leads a b := by
  obtain ⟨e', he', hfrom, rfl⟩ := hay
  obtain ⟨e, he, hcopy⟩ := h.edge_of he'
  obtain ⟨hstart, hend⟩ := hg.edges e he
  have hae : a = e.fromNodeID := h.inj ha hstart (hfrom.symm.trans hcopy.fromNodeID)
  exact ⟨e.toNodeID, hend, hcopy.toNodeID, e, he, hae.symm, rfl⟩

theorem path_from (h : Renames f g g') (hg : g.Closed) {a y : UUID}
    (ha : ∃ n ∈ g.nodes, n.id = a) (hay : TransGen g'.Leads (f a) y) :
    ∃ b, (∃ n ∈ g.nodes, n.id = b) ∧ y = f b ∧ TransGen g.Leads a b := by
  induction hay with
  | single hstep =>
    obtain ⟨b, hb, rfl, hab⟩ := h.leads_from hg ha hstep
    exact ⟨b, hb, rfl, .single hab⟩
  | tail _ hstep ih =>
    obtain ⟨b, hb, rfl, hab⟩ := ih
    obtain ⟨c, hc, rfl, hbc⟩ := h.leads_from hg hb hstep
    exact ⟨c, hc, rfl, hab.tail hbc⟩

theorem path_iff (h : Renames f g g') (hg : g.Closed) {a b : UUID}
    (ha : ∃ n ∈ g.nodes, n.id = a) (hb : ∃ n ∈ g.nodes, n.id = b) :
    TransGen g'.Leads (f a) (f b) ↔ TransGen g.Leads a b := by
  constructor
  · intro hab
    obtain ⟨b', hb', heq, hpath⟩ := h.path_from hg ha hab
    rwa [h.inj hb hb' heq]
  · exact fun hab => TransGen.lift f (fun _ _ => h.leads) _ _ hab

theorem reaches_iff (h : Renames f g g') (hg : g.Closed) {a b : UUID}
    (ha : ∃ n ∈ g.nodes, n.id = a) (hb : ∃ n ∈ g.nodes, n.id = b) :
    ReflTransGen g'.Leads (f a) (f b) ↔ ReflTransGen g.Leads a b := by
  rw [reflTransGen_iff_eq_or_transGen, reflTransGen_iff_eq_or_transGen, h.path_iff hg ha hb,
    h.inj.eq_iff hb ha]

theorem acyclic_iff (h : Renames f g g') (hg : g.Closed) :
    (∀ x, ¬ TransGen g'.Leads x x) ↔ ∀ a, ¬ TransGen g.Leads a a := by
  constructor
  · exact fun hacyclic a ha => hacyclic (f a) (TransGen.lift f (fun _ _ => h.leads) _ _ ha)
  · intro hacyclic x hx
    obtain ⟨y, ⟨e', he', hfrom, -⟩, -⟩ := TransGen.head'_iff.mp hx
    obtain ⟨e, he, hcopy⟩ := h.edge_of he'
    obtain rfl : f e.fromNodeID = x := hcopy.fromNodeID.symm.trans hfrom
    have hstart := (hg.edges e he).1
    exact hacyclic _ ((h.path_iff hg hstart hstart).mp hx)

theorem leaves_iff (h : Renames f g g') (hg : g.Closed) {n : Node} (hn : n ∈ g.nodes) :
    (∃ e' ∈ g'.edges, e'.fromNodeID = f n.id) ↔ ∃ e ∈ g.edges, e.fromNodeID = n.id := by
  constructor
  · rintro ⟨e', he', hfrom⟩
    obtain ⟨e, he, hcopy⟩ := h.edge_of he'
    exact ⟨e, he, h.inj (hg.edges e he).1 ⟨n, hn, rfl⟩ (hcopy.fromNodeID.symm.trans hfrom)⟩
  · rintro ⟨e, he, hfrom⟩
    obtain ⟨e', he', hcopy⟩ := h.edge he
    exact ⟨e', he', by rw [hcopy.fromNodeID, hfrom]⟩

theorem publishable_iff (h : Renames f g g') (hg : g.Closed) :
    g'.Publishable ↔ g.Publishable := by
  have hnode : ∀ {n}, n ∈ g.nodes → { n with id := f n.id } ∈ g'.nodes := fun hn =>
    h.mem_nodes.mpr ⟨_, hn, rfl⟩
  have hleaves : ∀ {n}, n ∈ g.nodes → ((∀ e' ∈ g'.edges, e'.fromNodeID ≠ f n.id) ↔
      ∀ e ∈ g.edges, e.fromNodeID ≠ n.id) := by
    intro n hn
    simpa using not_congr (h.leaves_iff hg hn)
  constructor
  · intro hp
    refine ⟨?_, hg.edges, ?_, ?_, ?_, (h.acyclic_iff hg).mp hp.acyclic⟩
    · obtain ⟨root', hroot', -⟩ := hp.root
      rw [h.root, Option.map_eq_some_iff] at hroot'
      obtain ⟨root, hroot, -⟩ := hroot'
      exact ⟨root, hroot, hg.root root hroot⟩
    · intro n hn hk
      obtain ⟨hleave, hnone⟩ := hp.decision _ (hnode hn) hk
      exact ⟨(h.leaves_iff hg hn).mp hleave, hnone⟩
    · intro n hn hk
      obtain ⟨hleave, hsome⟩ := hp.terminal _ (hnode hn) hk
      exact ⟨(hleaves hn).mp hleave, hsome⟩
    · intro n hn
      obtain ⟨root', hroot', hreach⟩ := hp.reachable _ (hnode hn)
      rw [h.root, Option.map_eq_some_iff] at hroot'
      obtain ⟨root, hroot, rfl⟩ := hroot'
      exact ⟨root, hroot, (h.reaches_iff hg (hg.root root hroot) ⟨n, hn, rfl⟩).mp hreach⟩
  · intro hp
    refine ⟨?_, ?_, ?_, ?_, ?_, (h.acyclic_iff hg).mpr hp.acyclic⟩
    · obtain ⟨root, hroot, n, hn, rfl⟩ := hp.root
      exact ⟨f n.id, by rw [h.root, hroot]; rfl, _, hnode hn, rfl⟩
    · intro e' he'
      obtain ⟨e, he, hcopy⟩ := h.edge_of he'
      obtain ⟨⟨n, hn, hnid⟩, m, hm, hmid⟩ := hg.edges e he
      refine ⟨⟨_, hnode hn, ?_⟩, _, hnode hm, ?_⟩
      · rw [hcopy.fromNodeID, ← hnid]
      · rw [hcopy.toNodeID, ← hmid]
    · intro n' hn' hk
      obtain ⟨n, hn, rfl⟩ := h.mem_nodes.mp hn'
      obtain ⟨hleave, hnone⟩ := hp.decision n hn hk
      exact ⟨(h.leaves_iff hg hn).mpr hleave, hnone⟩
    · intro n' hn' hk
      obtain ⟨n, hn, rfl⟩ := h.mem_nodes.mp hn'
      obtain ⟨hleave, hsome⟩ := hp.terminal n hn hk
      exact ⟨(hleaves hn).mpr hleave, hsome⟩
    · intro n' hn'
      obtain ⟨n, hn, rfl⟩ := h.mem_nodes.mp hn'
      obtain ⟨root, hroot, hreach⟩ := hp.reachable n hn
      refine ⟨f root, by rw [h.root, hroot]; rfl, ?_⟩
      exact (h.reaches_iff hg (hg.root root hroot) ⟨n, hn, rfl⟩).mpr hreach

end Renames

end Graph

end Interbellum
