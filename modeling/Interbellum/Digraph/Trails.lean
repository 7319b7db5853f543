import Mathlib.Data.List.Chain
import Mathlib.Logic.Relation

/-!
# Trails through a labelled graph

A trail records, step by step, the vertex it was at and the label of the arc it took. Several
arcs of one label do no harm; a trail follows one of them.

* `Trail.nodup`: where arcs cannot be followed back to their start, no vertex is visited
  twice.
* `Trail.labels_nodup`: then no label is taken twice either, if it names one arc.
-/

namespace Interbellum.Digraph

open Relation

variable {α ε : Type*}

/-- `arc e a b` says that an arc labelled `e` leads from `a` to `b`. -/
def Trail (arc : ε → α → α → Prop) : α → List (α × ε) → α → Prop
  | a, [], b => a = b
  | a, (x, e) :: rest, b => x = a ∧ ∃ c, arc e a c ∧ Trail arc c rest b

/-- The vertices on a trail, its end included. -/
def visited (steps : List (α × ε)) (b : α) : List α := steps.map Prod.fst ++ [b]

namespace Trail

variable {arc : ε → α → α → Prop} {a b : α} {steps : List (α × ε)}

theorem concat_iff {x : α} {e : ε} :
    Trail arc a (steps ++ [(x, e)]) b ↔ Trail arc a steps x ∧ arc e x b := by
  induction steps generalizing a with
  | nil =>
    simp only [List.nil_append, Trail]
    constructor
    · rintro ⟨rfl, c, hc, rfl⟩
      exact ⟨rfl, hc⟩
    · rintro ⟨rfl, harc⟩
      exact ⟨rfl, b, harc, rfl⟩
  | cons y rest ih =>
    simp only [List.cons_append, Trail, ih]
    constructor
    · rintro ⟨hy, c, hc, hrest, harc⟩
      exact ⟨⟨hy, c, hc, hrest⟩, harc⟩
    · rintro ⟨⟨hy, c, hc, hrest⟩, harc⟩
      exact ⟨hy, c, hc, hrest, harc⟩

theorem mono {arc' : ε → α → α → Prop} (hmono : ∀ e x y, arc e x y → arc' e x y)
    (h : Trail arc a steps b) : Trail arc' a steps b := by
  induction steps generalizing a with
  | nil => exact h
  | cons y rest ih =>
    obtain ⟨hy, c, hc, hrest⟩ := h
    exact ⟨hy, c, hmono _ _ _ hc, ih hrest⟩

/-- A trail ends where it starts or at the end of an arc. -/
theorem end_cases (h : Trail arc a steps b) : b = a ∨ ∃ e x, arc e x b := by
  rcases List.eq_nil_or_concat steps with rfl | ⟨rest, ⟨x, e⟩, rfl⟩
  · exact .inl h.symm
  · rw [List.concat_eq_append, concat_iff] at h
    exact .inr ⟨e, x, h.2⟩

theorem first (h : Trail arc a steps b) {x : α × ε} (hx : steps.head? = some x) : x.1 = a := by
  cases steps with
  | nil => cases hx
  | cons y rest =>
    obtain rfl : y = x := Option.some.inj hx
    exact h.1

theorem leaves (h : Trail arc a steps b) : ∀ x ∈ steps, ∃ c, arc x.2 x.1 c := by
  induction steps generalizing a with
  | nil => simp
  | cons y rest ih =>
    obtain ⟨hy, c, hc, hrest⟩ := h
    intro x hx
    rcases List.mem_cons.mp hx with rfl | hx
    · exact ⟨c, by rwa [hy]⟩
    · exact ih hrest x hx

theorem chained (h : Trail arc a steps b) {k : Nat} {x y : α × ε} (hx : steps[k]? = some x)
    (hy : steps[k + 1]? = some y) : arc x.2 x.1 y.1 := by
  induction steps generalizing a k with
  | nil => cases hx
  | cons z rest ih =>
    obtain ⟨hz, c, hc, hrest⟩ := h
    cases k with
    | zero =>
      obtain rfl : z = x := Option.some.inj hx
      have hfirst : y.1 = c := by
        apply hrest.first
        rw [List.head?_eq_getElem?]
        exact hy
      rw [hfirst, hz]
      exact hc
    | succ k => exact ih hrest hx hy

theorem last (h : Trail arc a steps b) {x : α × ε} (hx : steps.getLast? = some x) :
    arc x.2 x.1 b := by
  obtain ⟨rest, rfl⟩ := List.getLast?_eq_some_iff.mp hx
  exact (concat_iff.mp h).2

theorem isChain (h : Trail arc a steps b) :
    (visited steps b).IsChain fun x y => ∃ e, arc e x y := by
  induction steps generalizing a with
  | nil => exact List.isChain_singleton _
  | cons x rest ih =>
    obtain ⟨hx, c, hc, hrest⟩ := h
    refine List.isChain_cons.mpr ⟨?_, ih hrest⟩
    intro y hy
    have hyc : y = c := by
      cases rest with
      | nil =>
        obtain rfl : b = y := by simpa [visited] using hy
        exact hrest.symm
      | cons z zs =>
        obtain rfl : z.1 = y := by simpa [visited] using hy
        exact hrest.1
    exact ⟨x.2, by rwa [hx, hyc]⟩

theorem nodup (h : Trail arc a steps b)
    (hacyclic : ∀ x, ¬ TransGen (fun x y => ∃ e, arc e x y) x x) : (visited steps b).Nodup := by
  have hchain := h.isChain.imp fun _ _ hxy => TransGen.single hxy
  refine (List.isChain_iff_pairwise.mp hchain).imp ?_
  rintro x y hxy rfl
  exact hacyclic x hxy

theorem labels_nodup (h : Trail arc a steps b)
    (hacyclic : ∀ x, ¬ TransGen (fun x y => ∃ e, arc e x y) x x)
    (hlabel : ∀ e x y x' y', arc e x y → arc e x' y' → x = x') : (steps.map Prod.snd).Nodup := by
  have hnodes : (steps.map Prod.fst).Nodup := (List.nodup_append.mp (h.nodup hacyclic)).1
  rw [List.Nodup, List.pairwise_map] at hnodes ⊢
  refine hnodes.imp_of_mem ?_
  intro x y hx hy hne hsame
  obtain ⟨c, hc⟩ := h.leaves x hx
  obtain ⟨d, hd⟩ := h.leaves y hy
  rw [hsame] at hc
  exact hne (hlabel _ _ _ _ _ hc hd)

end Trail

end Interbellum.Digraph
