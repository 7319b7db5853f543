import Mathlib.Logic.Function.Basic
import Interbellum.Digraph.Trails

/-!
# Working through procedures

What the server is for, without its tables. A procedure is a set of places with choices that lead
from one to another; a case follows the published procedure it was started with, from its root,
and what it has chosen is never changed.

* `Coherent.run`: a coherent desk stays coherent.
* `Run.keeps`: what was published, and what a case has chosen, is kept.
* `Coherent.finishes`: every case can be brought to an end.
-/

namespace Interbellum.Engine

open Interbellum.Digraph (Trail)

variable {α τ κ ι ν ε ρ : Type*}

structure Procedure (τ ν ε ρ : Type*) where
  root : ν
  /-- the type of the subjects it is for -/
  handles : τ
  /-- The choice leads from one place to another. -/
  Leads : ε → ν → ν → Prop
  /-- how a case ends here -/
  resolution : ν → Option ρ

/-- A place that is reached offers choices exactly where no case ends, and no case goes on for
ever. -/
structure Procedure.Sound (p : Procedure τ ν ε ρ) : Prop where
  names : ∀ e a b a' b', p.Leads e a b → p.Leads e a' b' → a = a' ∧ b = b'
  ends : ∀ steps a, Trail p.Leads p.root steps a →
    ((p.resolution a).isSome ↔ ∀ e b, ¬ p.Leads e a b)
  bounded : ∃ n, ∀ steps a, Trail p.Leads p.root steps a → steps.length ≤ n

structure Case (α κ ν ε : Type*) where
  subject : α
  procedure : κ
  steps : List (ν × ε)
  position : ν

@[ext]
structure Desk (α τ κ ι ν ε ρ : Type*) where
  subjects : α → Option τ
  procedures : κ → Option (Procedure τ ν ε ρ)
  cases : ι → Option (Case α κ ν ε)

inductive Action (α τ κ ι ν ε ρ : Type*)
  | ingest (a : α) (t : τ)
  | publish (k : κ) (p : Procedure τ ν ε ρ)
  | start (i : ι) (a : α) (k : κ)
  | choose (i : ι) (e : ε)

variable [DecidableEq α] [DecidableEq κ] [DecidableEq ι]

def Case.after (c : Case α κ ν ε) (e : ε) (b : ν) : Case α κ ν ε :=
  { c with steps := c.steps ++ [(c.position, e)], position := b }

inductive Desk.Step (d : Desk α τ κ ι ν ε ρ) :
    Action α τ κ ι ν ε ρ → Desk α τ κ ι ν ε ρ → Prop
  | ingest {a : α} {t : τ} (hnew : d.subjects a = none) :
    Step d (.ingest a t) { d with subjects := Function.update d.subjects a (some t) }
  | publish {k : κ} {p : Procedure τ ν ε ρ} (hnew : d.procedures k = none) (hsound : p.Sound) :
    Step d (.publish k p) { d with procedures := Function.update d.procedures k (some p) }
  | start {i : ι} {a : α} {k : κ} {p : Procedure τ ν ε ρ} (hnew : d.cases i = none)
      (hprocedure : d.procedures k = some p) (hsubject : d.subjects a = some p.handles) :
    Step d (.start i a k) { d with cases := Function.update d.cases i (some ⟨a, k, [], p.root⟩) }
  | choose {i : ι} {e : ε} {c : Case α κ ν ε} {p : Procedure τ ν ε ρ} {b : ν}
      (hcase : d.cases i = some c) (hprocedure : d.procedures c.procedure = some p)
      (hleads : p.Leads e c.position b) :
    Step d (.choose i e) { d with cases := Function.update d.cases i (some (c.after e b)) }

inductive Desk.Run : Desk α τ κ ι ν ε ρ → List (Action α τ κ ι ν ε ρ) →
    Desk α τ κ ι ν ε ρ → Prop
  | nil (d : Desk α τ κ ι ν ε ρ) : Run d [] d
  | snoc {d d' d'' : Desk α τ κ ι ν ε ρ} {actions : List (Action α τ κ ι ν ε ρ)}
      {action : Action α τ κ ι ν ε ρ} (hrun : Run d actions d') (hstep : d'.Step action d'') :
    Run d (actions ++ [action]) d''

/-! ## What is kept -/

/-- What was published stays as it is, and cases only go on. -/
structure Desk.Keeps (d d' : Desk α τ κ ι ν ε ρ) : Prop where
  subjects : ∀ a t, d.subjects a = some t → d'.subjects a = some t
  procedures : ∀ k p, d.procedures k = some p → d'.procedures k = some p
  cases : ∀ i c, d.cases i = some c → ∃ c', d'.cases i = some c' ∧ c'.subject = c.subject ∧
    c'.procedure = c.procedure ∧ c.steps <+: c'.steps

namespace Desk

variable {d d' d'' : Desk α τ κ ι ν ε ρ} {action : Action α τ κ ι ν ε ρ}
  {actions : List (Action α τ κ ι ν ε ρ)}

omit [DecidableEq α] [DecidableEq κ] [DecidableEq ι] in
theorem Keeps.refl (d : Desk α τ κ ι ν ε ρ) : d.Keeps d :=
  ⟨fun _ _ h => h, fun _ _ h => h, fun _ c h => ⟨c, h, rfl, rfl, List.prefix_rfl⟩⟩

omit [DecidableEq α] [DecidableEq κ] [DecidableEq ι] in
theorem Keeps.trans (h : d.Keeps d') (h' : d'.Keeps d'') : d.Keeps d'' where
  subjects a t ha := h'.subjects a t (h.subjects a t ha)
  procedures k p hk := h'.procedures k p (h.procedures k p hk)
  cases := by
    intro i c hc
    obtain ⟨c', hc', hsubject, hprocedure, hsteps⟩ := h.cases i c hc
    obtain ⟨c'', hc'', hsubject', hprocedure', hsteps'⟩ := h'.cases i c' hc'
    exact ⟨c'', hc'', hsubject'.trans hsubject, hprocedure'.trans hprocedure, hsteps.trans hsteps'⟩

theorem update_eq_some {α β : Type*} [DecidableEq α] {f : α → Option β} {a b : α} {x y : β} :
    Function.update f a (some x) b = some y ↔ b = a ∧ x = y ∨ b ≠ a ∧ f b = some y := by
  by_cases hb : b = a
  · subst hb
    simp
  · simp [hb]

theorem update_of_none {α β : Type*} [DecidableEq α] {f : α → Option β} {a b : α} {x y : β}
    (ha : f a = none) (hb : f b = some y) : Function.update f a (some x) b = some y := by
  refine update_eq_some.mpr (.inr ⟨?_, hb⟩)
  rintro rfl
  rw [ha] at hb
  cases hb

theorem Step.keeps (h : d.Step action d') : d.Keeps d' := by
  cases h with
  | ingest hnew => exact { Keeps.refl d with subjects := fun _ _ h => update_of_none hnew h }
  | publish hnew => exact { Keeps.refl d with procedures := fun _ _ h => update_of_none hnew h }
  | start hnew =>
    refine { Keeps.refl d with cases := fun i c h => ?_ }
    exact ⟨c, update_of_none hnew h, rfl, rfl, List.prefix_rfl⟩
  | @choose i e c p b hcase =>
    refine { Keeps.refl d with cases := fun j c' h => ?_ }
    by_cases hj : j = i
    · subst hj
      obtain rfl := Option.some.inj (hcase.symm.trans h)
      exact ⟨_, Function.update_self .., rfl, rfl, List.prefix_append _ _⟩
    · exact ⟨c', update_eq_some.mpr (.inr ⟨hj, h⟩), rfl, rfl, List.prefix_rfl⟩

theorem Run.keeps (h : Run d actions d') : d.Keeps d' := by
  induction h with
  | nil => exact Keeps.refl d
  | snoc _ hstep ih => exact ih.trans hstep.keeps

/-! ## The invariant -/

/-- A case is where its choices have led it, in a published procedure for its subject. -/
def Follows (d : Desk α τ κ ι ν ε ρ) (c : Case α κ ν ε) (p : Procedure τ ν ε ρ) : Prop :=
  d.procedures c.procedure = some p ∧ d.subjects c.subject = some p.handles ∧
    Trail p.Leads p.root c.steps c.position

structure Coherent (d : Desk α τ κ ι ν ε ρ) : Prop where
  procedures : ∀ k p, d.procedures k = some p → p.Sound
  cases : ∀ i c, d.cases i = some c → ∃ p, d.Follows c p

omit [DecidableEq α] [DecidableEq κ] [DecidableEq ι] in
theorem Follows.mono {c : Case α κ ν ε} {p : Procedure τ ν ε ρ} (h : d.Follows c p)
    (hkeeps : d.Keeps d') : d'.Follows c p :=
  ⟨hkeeps.procedures _ _ h.1, hkeeps.subjects _ _ h.2.1, h.2.2⟩

theorem Coherent.step (h : d.Coherent) (hstep : d.Step action d') : d'.Coherent := by
  have hkeeps := hstep.keeps
  have hcases : ∀ i c, d.cases i = some c → ∃ p, d'.Follows c p := by
    intro i c hc
    obtain ⟨p, hp⟩ := h.cases i c hc
    exact ⟨p, hp.mono hkeeps⟩
  cases hstep with
  | ingest => exact ⟨h.procedures, hcases⟩
  | @publish k p hnew hsound =>
    refine ⟨fun l q hq => ?_, hcases⟩
    rcases update_eq_some.mp hq with ⟨-, rfl⟩ | ⟨-, hq⟩
    · exact hsound
    · exact h.procedures l q hq
  | @start i a k p hnew hprocedure hsubject =>
    refine ⟨h.procedures, fun j c hc => ?_⟩
    rcases update_eq_some.mp hc with ⟨-, rfl⟩ | ⟨-, hc⟩
    · exact ⟨p, hprocedure, hsubject, rfl⟩
    · exact hcases j c hc
  | @choose i e c p b hcase hprocedure hleads =>
    refine ⟨h.procedures, fun j c' hc => ?_⟩
    rcases update_eq_some.mp hc with ⟨-, rfl⟩ | ⟨-, hc⟩
    · obtain ⟨q, hq, hsubject, htrail⟩ := h.cases i c hcase
      obtain rfl := Option.some.inj (hprocedure.symm.trans hq)
      exact ⟨p, hprocedure, hsubject, Trail.concat_iff.mpr ⟨htrail, hleads⟩⟩
    · exact hcases j c' hc

theorem Coherent.run (h : d.Coherent) (hrun : Run d actions d') : d'.Coherent := by
  induction hrun with
  | nil => exact h
  | snoc _ hstep ih => exact ih.step hstep

/-- What an action does is settled by its name. -/
theorem Coherent.unique (h : d.Coherent) (hstep : d.Step action d') (hstep' : d.Step action d'') :
    d' = d'' := by
  cases hstep with
  | ingest => cases hstep' with | ingest => rfl
  | publish => cases hstep' with | publish => rfl
  | start _ hprocedure =>
    cases hstep' with
    | start _ hprocedure' =>
      obtain rfl := Option.some.inj (hprocedure.symm.trans hprocedure')
      rfl
  | choose hcase hprocedure hleads =>
    cases hstep' with
    | choose hcase' hprocedure' hleads' =>
      obtain rfl := Option.some.inj (hcase.symm.trans hcase')
      obtain rfl := Option.some.inj (hprocedure.symm.trans hprocedure')
      obtain ⟨-, rfl⟩ := (h.procedures _ _ hprocedure).names _ _ _ _ _ hleads hleads'
      rfl

/-! ## Bringing a case to an end -/

theorem Run.cons (hstep : d.Step action d') (hrun : Run d' actions d'') :
    Run d (action :: actions) d'' := by
  induction hrun with
  | nil => exact .snoc (.nil d) hstep
  | snoc _ hlast ih => exact .snoc ih hlast

/-- Every case can be brought to an end by choices alone. -/
theorem Coherent.finishes (h : d.Coherent) {i : ι} {c : Case α κ ν ε}
    (hcase : d.cases i = some c) :
    ∃ (choices : List ε) (d' : Desk α τ κ ι ν ε ρ) (c' : _) (p : _),
      Run d (choices.map (Action.choose i)) d' ∧ d'.cases i = some c' ∧
        d'.procedures c'.procedure = some p ∧ (p.resolution c'.position).isSome := by
  obtain ⟨p, hprocedure, hsubject, htrail⟩ := h.cases i c hcase
  have hsound := h.procedures _ _ hprocedure
  obtain ⟨n, hn⟩ := hsound.bounded
  -- the choices that are left
  generalize hroom : n - c.steps.length = room
  induction room using Nat.strong_induction_on generalizing d c with
  | _ room ih =>
    by_cases hend : (p.resolution c.position).isSome
    · exact ⟨[], d, c, p, .nil d, hcase, hprocedure, hend⟩
    · rw [hsound.ends _ _ htrail] at hend
      push Not at hend
      obtain ⟨e, b, hleads⟩ := hend
      have hstep : d.Step (.choose i e) _ := .choose hcase hprocedure hleads
      have htrail' := Trail.concat_iff.mpr ⟨htrail, hleads⟩
      have hlength := hn _ _ htrail'
      rw [List.length_append, List.length_singleton] at hlength
      obtain ⟨choices, d', c', q, hrun, hdone⟩ := ih (n - (c.after e b).steps.length) (by
        rw [Case.after, List.length_append, List.length_singleton]
        omega) (h.step hstep) (Function.update_self ..) hprocedure hsubject htrail' rfl
      exact ⟨e :: choices, d', c', q, .cons hstep hrun, hdone⟩

end Desk

end Interbellum.Engine
