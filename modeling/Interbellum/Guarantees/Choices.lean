import Interbellum.Guarantees.Walks

/-!
# Offered choices and accepted decisions

The choices a client is shown are filtered out of the loaded graph, while a decision is
checked by a lookup of its edge within the version and by the transition rule. Both come to
the same edges.

* `Attempt.run_fresh`: what a decision that is not a retry does, when it runs alone.
* `accepted_iff_offered`: it is accepted exactly when its edge is among the choices.
-/

namespace Interbellum

open InvestigationRepository InvestigationService
open Txn (applyAll)

variable {s : Store} {a : Attempt}

/-- A request that the columns can hold, with an id that is not taken. -/
structure Attempt.Storable (s : Store) (a : Attempt) : Prop where
  input : storableInput a.input = true
  fresh : ∀ r ∈ s.steps, r.id ≠ a.stepID
  number : int4 ((s.stepsOf a.investigationID).length + 1 : Nat) = true

/-- The edges by which investigation `i` can be advanced. -/
def Leaving (s : Store) (i : Investigation) (e : Edge) : Prop :=
  i.status = .inProgress ∧ e ∈ s.edgesOf i.playbookVersionID ∧ e.fromNodeID = i.currentNodeID

theorem mem_choicesFor {i : Investigation} {v : Version} (hv : v.id = i.playbookVersionID)
    {e : Edge} : e ∈ choicesFor (s.graphOf v) i ↔ Leaving s i e := by
  unfold choicesFor Leaving
  cases hstatus : i.status with
  | completed => simp [Investigation.isCompleted, hstatus]
  | inProgress => simp [Investigation.isCompleted, hstatus, hv]

/-- A decision that is not a retry: the edge decides about it, and the other checks pass. -/
theorem Attempt.run_fresh (hs : Valid s) {i : Investigation} (hi : i ∈ s.investigations)
    (hid : i.id = a.investigationID) (hunused : a.KeyUnused s) (hstorable : a.Storable s) :
    (∃ e next step, Leaving s i e ∧ e.id = a.input.edgeID ∧ next.currentNodeID = e.toNodeID ∧
      Advances s i (a.row s i e) next ∧
        a.call.run.run s = (.ok ⟨next, step, false⟩, s.advanced (a.row s i e) next)) ∨
    (∀ e, e.id = a.input.edgeID → ¬ Leaving s i e) ∧ ∃ error : AppError,
      a.call.run.run s = (.error error, s) ∧ error.code =
        if i.status = .completed then .investigationCompleted else .invalidTransition := by
  have huniq : ∀ j ∈ s.investigations, j.id = a.investigationID → j = i := by
    intro j hj hjid
    exact List.inj_on_of_nodup_map hs.investigation_ids hj hi (hjid.trans hid.symm)
  rcases a.run_cases hs with ⟨d, ws, haccepts, hrun⟩ | ⟨e, hrejects, hrun⟩
  · rw [hrun]
    cases haccepts with
    | replay _ _ hrecorded _ _ _ =>
      obtain ⟨key, hkey, hr, hrkey⟩ := hrecorded
      exact absurd hrkey (hunused key hkey _ hr)
    | @advance j next edge step hjid hadvances hedge hscan =>
      obtain rfl := huniq j hadvances.stands hjid
      obtain ⟨e, he, heid, hfrom, hto⟩ := hadvances.edge
      have hsame : a.row s j edge = a.row s j e := by
        simp only [Attempt.row, newStep]
        rw [heid]
        rfl
      rw [hsame] at hadvances
      refine .inl ⟨e, next, step, ⟨hadvances.active, he, hfrom⟩, heid.trans hedge, hto.symm,
        hadvances, ?_⟩
      rw [hsame]
      rfl
  · rw [hrun]
    refine .inr ?_
    cases hrejects with
    | missing hmissing => exact absurd hid (hmissing i hi)
    | reused hkey hrecorded _ _ =>
      obtain ⟨key, hkey', hr, hrkey⟩ := hrecorded
      exact absurd hrkey (hunused key hkey' _ hr)
    | completed hj hjid _ hcompleted =>
      obtain rfl := huniq _ hj hjid
      refine ⟨?_, _, rfl, by rw [hcompleted]; rfl⟩
      rintro e - ⟨hactive, -⟩
      rw [hcompleted] at hactive
      cases hactive
    | unknown hj hjid _ hactive hedge =>
      obtain rfl := huniq _ hj hjid
      refine ⟨?_, _, rfl, by rw [hactive]; rfl⟩
      rintro e heid ⟨-, he, -⟩
      exact hedge e he heid
    | @elsewhere j e' hj hjid _ hactive he' hedge hfrom =>
      obtain rfl := huniq _ hj hjid
      refine ⟨?_, _, rfl, by rw [hactive]; rfl⟩
      rintro e heid ⟨-, he, hefrom⟩
      obtain ⟨row, hrow, -, rfl⟩ := mem_edgesOf.mp he
      obtain ⟨row', hrow', -, rfl⟩ := mem_edgesOf.mp he'
      obtain rfl : row = row' := List.inj_on_of_nodup_map hs.edge_ids hrow hrow'
        (heid.trans hedge.symm)
      exact hfrom hefrom
    | unstorable hcause =>
      rcases hcause with hinput | ⟨-, hnumber⟩
      · rw [hstorable.input] at hinput
        cases hinput
      · rw [hstorable.number] at hnumber
        cases hnumber
    | taken _ hr hrid => exact absurd hrid (hstorable.fresh _ hr)

/-- A decision on investigation `i` that is not a retry is accepted exactly when its edge is
one of the choices that `Get` offers. It then leads to the end of that edge and appends one
step; otherwise it changes nothing, and its error tells whether `i` is completed. -/
theorem accepted_iff_offered (h : Reachable s) {i : Investigation} (hi : i ∈ s.investigations)
    (hid : a.investigationID = i.id) (hunused : a.KeyUnused s) (hstorable : a.Storable s) :
    ∃ state, (InvestigationService.get i.id).run.run s = (.ok state, s) ∧
      ((∃ d, (a.call.run.run s).1 = .ok d) ↔
        ∃ e ∈ state.availableChoices, e.id = a.input.edgeID) ∧
      (∀ e ∈ state.availableChoices, e.id = a.input.edgeID → ∃ d s' row,
        a.call.run.run s = (.ok d, s') ∧ d.investigation ∈ s'.investigations ∧
          d.investigation.id = i.id ∧ d.investigation.currentNodeID = e.toNodeID ∧
            row.investigationID = i.id ∧ s'.steps = s.steps ++ [row]) ∧
      ((∀ e ∈ state.availableChoices, e.id ≠ a.input.edgeID) → ∃ error : AppError,
        a.call.run.run s = (.error error, s) ∧ error.code =
          if i.status = .completed then .investigationCompleted else .invalidTransition) := by
  have hs := h.valid
  obtain ⟨v, al, n, steps, hshown, hget⟩ := run_get hs hi
  have hchoices : ∀ {e}, e ∈ (stateView s i v al n steps).availableChoices ↔ Leaving s i e :=
    mem_choicesFor hshown.bound.2.1
  refine ⟨_, hget, ?_⟩
  rcases Attempt.run_fresh hs hi hid.symm hunused hstorable with
    ⟨e, next, step, hleaving, heid, hto, hadvances, hrun⟩ | ⟨hnone, error, hrun, hcode⟩
  · refine ⟨⟨fun _ => ⟨e, hchoices.mpr hleaving, heid⟩, fun _ => ⟨_, by rw [hrun]⟩⟩, ?_, ?_⟩
    · intro e' he' heid'
      obtain ⟨-, hmem, -⟩ := hchoices.mp he'
      obtain ⟨-, hmem', -⟩ := hleaving
      obtain ⟨r, hr, -, rfl⟩ := mem_edgesOf.mp hmem
      obtain ⟨r', hr', -, rfl⟩ := mem_edgesOf.mp hmem'
      obtain rfl : r = r' := List.inj_on_of_nodup_map hs.edge_ids hr hr' (heid'.trans heid.symm)
      exact ⟨_, _, _, hrun, (hadvances.mem_investigations hs).mpr (.inl rfl), hadvances.next_id,
        hto, hadvances.owner, rfl⟩
    · exact fun hnone => absurd heid (hnone e (hchoices.mpr hleaving))
  · refine ⟨⟨?_, ?_⟩, ?_, fun _ => ⟨error, hrun, hcode⟩⟩
    · rintro ⟨d, hd⟩
      rw [hrun] at hd
      cases hd
    · rintro ⟨e, he, heid⟩
      exact absurd (hchoices.mp he) (hnone e heid)
    · exact fun e he heid => absurd (hchoices.mp he) (hnone e heid)

theorem Triage.attempt_unused (edgeID : UUID) :
    (Triage.attempt 5 edgeID none).KeyUnused Triage.started := fun _ hkey => nomatch hkey

theorem Triage.attempt_storable (edgeID : UUID) :
    (Triage.attempt 5 edgeID none).Storable Triage.started := by
  have hsteps : Triage.started.steps = [] := by decide +kernel
  refine ⟨rfl, by simp [hsteps], ?_⟩
  show int4 ((Triage.started.stepsOf 4).length + 1 : Nat) = true
  rw [Store.stepsOf, hsteps]
  rfl

/-- At the root, an edge of the root is accepted and one of another node is not. -/
theorem accepted_iff_offered_triage :
    (∃ d, ((Triage.attempt 5 21 none).call.run.run Triage.started).1 = .ok d) ∧
      ¬ ∃ d, ((Triage.attempt 5 22 none).call.run.run Triage.started).1 = .ok d := by
  have hi : ⟨4, 3, 2, .inProgress, 10, 10, none, none⟩ ∈ Triage.started.investigations := by
    decide +kernel
  have hoffered : ((InvestigationService.get 4).run.run Triage.started).1.map
      (fun state => state.availableChoices.map Edge.id) = .ok [20, 21] := by decide +kernel
  have hiff : ∀ edgeID, (∃ d, ((Triage.attempt 5 edgeID none).call.run.run
      Triage.started).1 = .ok d) ↔ edgeID ∈ [20, 21] := by
    intro edgeID
    obtain ⟨state, hget, hiff, -⟩ := accepted_iff_offered Triage.reachable_started hi rfl
      (Triage.attempt_unused edgeID) (Triage.attempt_storable edgeID)
    rw [hget] at hoffered
    rw [hiff, ← Except.ok.inj hoffered, List.mem_map]
    rfl
  exact ⟨(hiff 21).mpr (by decide), fun h => absurd ((hiff 22).mp h) (by decide)⟩

end Interbellum
