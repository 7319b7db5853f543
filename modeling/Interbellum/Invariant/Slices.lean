import Interbellum.Invariant.Requests

/-!
# Decisions on different investigations do not interfere

A decision looks at the rows of one investigation, at the graphs of versions, and at whether
the id drawn for its step is taken. It writes rows of its investigation only. Running it in
states that agree on this comes to the same.

* `Attempt.run_alike`: the call returns and writes the same in states that are alike.
* `Attempt.run_frame`: it leaves alone what a decision on another investigation looks at.
-/

namespace Interbellum

open InvestigationRepository
open Txn (applyAll)

/-- The two states agree on what a decision looks at. -/
structure Attempt.Alike (a : Attempt) (s s' : Store) : Prop where
  investigation : Same (.investigation a.investigationID) s s'
  step : Same (.step a.stepID) s s'
  version : ∀ id, Same (.version id) s s'

variable {a : Attempt} {s s' : Store}

namespace Attempt.Alike

theorem applyAll (h : a.Alike s s') (ws : List Write) :
    a.Alike (Txn.applyAll ws s) (Txn.applyAll ws s') :=
  ⟨same_applyAll h.investigation ws, same_applyAll h.step ws,
    fun id => same_applyAll (h.version id) ws⟩

theorem nodesOf (h : a.Alike s s') (id : UUID) : s.nodesOf id = s'.nodesOf id := by
  rw [Store.nodesOf, Store.nodesOf, (h.version id).2.1]

theorem edgesOf (h : a.Alike s s') (id : UUID) : s.edgesOf id = s'.edgesOf id := by
  rw [Store.edgesOf, Store.edgesOf, (h.version id).2.2]

end Attempt.Alike

/-! ## What the statements look at -/

theorem respects_lockInvestigation (a : Attempt) :
    (lockInvestigation a.investigationID).run.Respects a.Alike
      fun i => i.id = a.investigationID := by
  refine respects_sql ?_ ?_
  · intro s s' h
    rw [h.investigation.1]
  · intro s i hi
    cases hrow : (s.investigationRows a.investigationID).head? with
    | none => simp [Answer.lockRow, Answer.fail, hrow] at hi
    | some j =>
      obtain rfl : j = i := by simpa [Answer.lockRow, hrow] using hi
      exact of_decide_eq_true (List.mem_filter.mp (List.mem_of_mem_head? hrow)).2

theorem respects_findRecorded (a : Attempt) :
    (findRecorded a.investigationID a.input).run.Respects a.Alike fun _ => True := by
  unfold findRecorded
  cases a.input.idempotencyKey with
  | none => trivial
  | some key =>
    refine respects_sql ?_ fun _ _ _ => trivial
    intro s s' h
    rw [h.investigation.2]

theorem respects_loadEdge (a : Attempt) (versionID : UUID) :
    (loadEdgeWithDestination versionID a.input.edgeID).run.Respects a.Alike fun _ => True := by
  refine respects_sql ?_ fun _ _ _ => trivial
  intro s s' h
  rw [h.edgesOf, h.nodesOf]

theorem respects_insertStep {i : Investigation} (hid : i.id = a.investigationID) (edge : Edge) :
    (insertStep a.stepID a.txNow i a.input edge).run.Respects a.Alike fun _ => True := by
  refine respects_sql ?_ fun _ _ _ => trivial
  intro s s' h
  simp only [hid, h.investigation.1, h.investigation.2, any_of_filter_eq h.step,
    (h.version _).1, h.nodesOf, h.edgesOf]

theorem respects_updateState {next : Investigation} (hid : next.id = a.investigationID) :
    (updateInvestigationState next).run.Respects a.Alike fun _ => True := by
  refine respects_sql ?_ fun _ _ _ => trivial
  intro s s' h
  simp only [updatedState, hid, h.investigation.1, h.nodesOf]

theorem decide_id {i next : Investigation} {e : Edge} {n : Node} {now : Time}
    (h : i.decide e n now = .ok next) : next.id = i.id := by
  unfold Investigation.decide at h
  split at h
  · cases h
  split at h
  · cases h
  split at h
  · cases h
  split at h
  · rw [← Except.ok.inj h]
  · rw [← Except.ok.inj h]

theorem respects_advance {i : Investigation} (hid : i.id = a.investigationID) :
    (advance a.stepID a.now a.txNow i a.input).run.Respects a.Alike fun _ => True := by
  refine .bind ((respects_loadEdge a i.playbookVersionID).mono ?_)
  rintro ⟨edge, destination⟩ -
  cases hdecide : i.decide edge destination a.now with
  | error e =>
    simp only [hdecide]
    trivial
  | ok next =>
    simp only [hdecide]
    refine .bind ((respects_insertStep hid edge).mono ?_)
    intro step _
    refine .bind ((respects_updateState ((decide_id hdecide).trans hid)).mono ?_)
    exact fun _ _ => trivial

theorem respects_body (a : Attempt) : a.body.run.Respects a.Alike fun _ => True := by
  refine .bind ((respects_lockInvestigation a).mono ?_)
  intro i hid
  refine .bind ((respects_findRecorded a).mono ?_)
  intro found _
  cases found with
  | some step => trivial
  | none =>
    cases hcompleted : i.isCompleted with
    | true =>
      simp only [if_true]
      trivial
    | false =>
      simp only [Bool.false_eq_true, if_false]
      exact respects_advance hid

/-! ## Running -/

/-- In states that are alike the call returns the same and makes the same writes. -/
theorem Attempt.run_alike (h : a.Alike s s') : ∃ r ws,
    a.call.run.run s = (r, applyAll ws s) ∧ a.call.run.run s' = (r, applyAll ws s') := by
  have hbody := (respects_body a).run_eq (fun ws => h.applyAll ws) []
  rw [a.run_call, a.run_call, hbody]
  cases a.body.run.run s' [] with
  | mk r ws =>
    cases r with
    | ok d => exact ⟨_, ws, rfl, rfl⟩
    | error e => exact ⟨_, [], rfl, rfl⟩

/-- A call changes nothing, or advances its investigation by a step with the id drawn for it. -/
theorem Attempt.run_effect (hs : Valid s) (a : Attempt) :
    (a.call.run.run s).2 = s ∨ ∃ i next row, Advances s i row next ∧ i.id = a.investigationID ∧
      row.id = a.stepID ∧ (a.call.run.run s).2 = s.advanced row next := by
  rcases a.run_cases hs with ⟨d, ws, haccepts, hrun⟩ | ⟨e, -, hrun⟩
  · rw [hrun]
    cases haccepts with
    | replay => exact .inl rfl
    | @advance i next edge step hid hadvances hedge hscan =>
      exact .inr ⟨i, next, _, hadvances, hid, rfl, rfl⟩
  · exact .inl (by rw [hrun])

/-- What is locked for other decisions stays as it is. -/
theorem Attempt.run_frame (hs : Valid s) {key : LockKey}
    (hinvestigation : key ≠ .investigation a.investigationID) (hstep : key ≠ .step a.stepID) :
    Same key s (a.call.run.run s).2 := by
  rcases a.run_effect hs with hsame | ⟨i, next, row, hadvances, hid, hrow, hnext⟩
  · rw [hsame]
    exact Same.refl key s
  · rw [hnext]
    have hinsert : key ∉ (Write.insertStep row).keys := by
      simp [Write.keys, hrow, hadvances.owner, hid, hinvestigation, hstep]
    have hstate : key ∉ (Write.setState next.id next.currentNodeID next.status next.completedAt
        next.finalResolution).keys := by
      simp [Write.keys, hadvances.next_id, hid, hinvestigation]
    exact (same_of_not_mem_keys hinsert s).trans (same_of_not_mem_keys hstate _)

end Interbellum
