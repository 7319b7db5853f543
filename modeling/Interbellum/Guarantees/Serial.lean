import Mathlib.Data.List.Perm.Basic
import Interbellum.Invariant.Slices
import Interbellum.Server.Operations

/-!
# Decisions one at a time

What comes of running decision calls one after the other. The rows of an investigation, and
the results of the calls on it, depend on the order of these calls only.

* `serial_filter`: calls on one investigation run as if there were no others.
* `serial_result`, `serial_congr`: the order of calls on different ones does not matter.
-/

namespace Interbellum

variable {ι : Type} {a : ι → Attempt} {s : Store}

/-! ## One call at a time -/

/-- The state after the calls of these clients, one at a time. -/
def serial (a : ι → Attempt) (order : List ι) (s : Store) : Store :=
  after (order.map fun k => .decide (a k)) s

theorem serial_concat (order : List ι) (k : ι) :
    serial a (order ++ [k]) s = ((a k).call.run.run (serial a order s)).2 := by
  rw [serial, List.map_append, after, List.foldl_append]
  show ((Operation.decide (a k)).call.run _).2 = _
  rw [Operation.call, reply, Txn.Call.run_map]
  rfl

theorem Reachable.serial (h : Reachable s) (order : List ι) : Reachable (serial a order s) :=
  h.after _

/-- The ids drawn for the steps are not taken, and no two are the same. -/
structure Drawn (a : ι → Attempt) (s : Store) : Prop where
  fresh : ∀ k, ∀ r ∈ s.steps, r.id ≠ (a k).stepID
  distinct : ∀ k k', (a k).stepID = (a k').stepID → k = k'

theorem serial_steps (h : Reachable s) {order : List ι} {r : StepRow}
    (hr : r ∈ (serial a order s).steps) : r ∈ s.steps ∨ ∃ k ∈ order, r.id = (a k).stepID := by
  induction order using List.reverseRecOn with
  | nil => exact .inl hr
  | append_singleton order k ih =>
    rw [serial_concat] at hr
    have hstep : r ∈ (serial a order s).steps ∨ r.id = (a k).stepID := by
      rcases (a k).run_effect (h.serial order).valid with hsame | ⟨i, next, row, -, -, hrow, hnext⟩
      · exact .inl (by rwa [hsame] at hr)
      · rw [hnext] at hr
        rcases List.mem_append.mp hr with hr | hr
        · exact .inl hr
        · rw [List.mem_singleton.mp hr]
          exact .inr hrow
    rcases hstep with hr | hid
    · rcases ih hr with hr | ⟨k', hk', hid⟩
      · exact .inl hr
      · exact .inr ⟨k', List.mem_append_left _ hk', hid⟩
    · exact .inr ⟨k, List.mem_append_right _ (List.mem_singleton_self k), hid⟩

/-- The id drawn for a call that has not run yet is not taken. -/
theorem serial_fresh (h : Reachable s) (hdrawn : Drawn a s) {order : List ι} {k : ι}
    (hk : k ∉ order) : (serial a order s).steps.filter (fun r => r.id = (a k).stepID) = [] := by
  rw [List.filter_eq_nil_iff]
  intro r hr hid
  have hid := of_decide_eq_true hid
  rcases serial_steps h hr with hr | ⟨k', hk', hid'⟩
  · exact hdrawn.fresh k r hr hid
  · rw [hdrawn.distinct k k' (hid.symm.trans hid')] at hk
    exact hk hk'

/-- Calls on one investigation run as if there were no others. -/
theorem serial_filter (h : Reachable s) (hdrawn : Drawn a s) (id : UUID) {order : List ι}
    (hnodup : order.Nodup) :
    Same (.investigation id) (serial a order s)
        (serial a (order.filter fun k => (a k).investigationID = id) s) ∧
      ∀ v, Same (.version v) (serial a order s)
        (serial a (order.filter fun k => (a k).investigationID = id) s) := by
  induction order using List.reverseRecOn with
  | nil => exact ⟨Same.refl _ s, fun v => Same.refl _ s⟩
  | append_singleton order k ih =>
    obtain ⟨horder, -, hdisjoint⟩ := List.nodup_append.mp hnodup
    have hk : k ∉ order := fun hmem => hdisjoint k hmem k (List.mem_singleton_self k) rfl
    obtain ⟨hsame, hversion⟩ := ih horder
    rw [List.filter_append, serial_concat]
    by_cases hid : (a k).investigationID = id
    · subst hid
      have hstep : Same (.step (a k).stepID) (serial a order s)
          (serial a (order.filter fun k' => (a k').investigationID = (a k).investigationID) s) := by
        show List.filter _ _ = List.filter _ _
        rw [serial_fresh h hdrawn hk,
          serial_fresh h hdrawn fun hmem => hk (List.mem_filter.mp hmem).1]
      have halike : (a k).Alike _ _ := ⟨hsame, hstep, hversion⟩
      obtain ⟨r, ws, hrun, hrun'⟩ := Attempt.run_alike halike
      have hself : [k].filter (fun k' => (a k').investigationID = (a k).investigationID) = [k] := by
        simp
      rw [hself, serial_concat, hrun, hrun']
      exact ⟨(halike.applyAll ws).investigation, (halike.applyAll ws).version⟩
    · have hnone : [k].filter (fun k' => (a k').investigationID = id) = [] := by simp [hid]
      rw [hnone, List.append_nil]
      have hs := (h.serial (a := a) order).valid
      have hframe : ∀ {key}, key ≠ .investigation (a k).investigationID →
          key ≠ .step (a k).stepID → Same key _ _ := Attempt.run_frame hs
      exact ⟨(hframe (by simpa using Ne.symm hid) (by simp)).symm.trans hsame,
        fun v => (hframe (by simp) (by simp)).symm.trans (hversion v)⟩

/-- The two orders agree on the calls on each investigation. -/
def Agree (a : ι → Attempt) (order order' : List ι) : Prop :=
  ∀ id, order.filter (fun k => (a k).investigationID = id) =
    order'.filter (fun k => (a k).investigationID = id)

section

variable {order order' : List ι}

theorem serial_same (h : Reachable s) (hdrawn : Drawn a s) (hnodup : order.Nodup)
    (hnodup' : order'.Nodup) {id : UUID}
    (hagree : order.filter (fun k => (a k).investigationID = id) =
      order'.filter (fun k => (a k).investigationID = id)) :
    Same (.investigation id) (serial a order s) (serial a order' s) ∧
      ∀ v, Same (.version v) (serial a order s) (serial a order' s) := by
  obtain ⟨hsame, hversion⟩ := serial_filter h hdrawn id hnodup
  obtain ⟨hsame', hversion'⟩ := serial_filter h hdrawn id hnodup'
  rw [hagree] at hsame hversion
  exact ⟨hsame.trans hsame'.symm, fun v => (hversion v).trans (hversion' v).symm⟩

/-- What a call returns depends on the calls on its investigation before it only. -/
theorem serial_result (h : Reachable s) (hdrawn : Drawn a s) (hnodup : order.Nodup)
    (hnodup' : order'.Nodup) {k : ι} (hk : k ∉ order) (hk' : k ∉ order')
    (hagree : order.filter (fun k' => (a k').investigationID = (a k).investigationID) =
      order'.filter (fun k' => (a k').investigationID = (a k).investigationID)) :
    ((a k).call.run.run (serial a order s)).1 = ((a k).call.run.run (serial a order' s)).1 := by
  obtain ⟨hsame, hversion⟩ := serial_same h hdrawn hnodup hnodup' hagree
  have hstep : Same (.step (a k).stepID) (serial a order s) (serial a order' s) := by
    show List.filter _ _ = List.filter _ _
    rw [serial_fresh h hdrawn hk, serial_fresh h hdrawn hk']
  obtain ⟨r, ws, hrun, hrun'⟩ := Attempt.run_alike ⟨hsame, hstep, hversion⟩
  rw [hrun, hrun']

end

/-- The same rows in every table. -/
structure SameRows (s t : Store) : Prop where
  playbooks : s.playbooks = t.playbooks
  versions : s.versions = t.versions
  nodes : s.nodes = t.nodes
  edges : s.edges = t.edges
  alerts : s.alerts = t.alerts
  investigations : s.investigations.Perm t.investigations
  steps : s.steps.Perm t.steps

/-- Decisions touch investigations and steps only. -/
theorem serial_tables (h : Reachable s) (order : List ι) :
    (serial a order s).playbooks = s.playbooks ∧ (serial a order s).versions = s.versions ∧
      (serial a order s).nodes = s.nodes ∧ (serial a order s).edges = s.edges ∧
        (serial a order s).alerts = s.alerts := by
  induction order using List.reverseRecOn with
  | nil => exact ⟨rfl, rfl, rfl, rfl, rfl⟩
  | append_singleton order k ih =>
    rw [serial_concat]
    rcases (a k).run_effect (h.serial order).valid with hsame | ⟨i, next, row, -, -, -, hnext⟩
    · rw [hsame]
      exact ih
    · rw [hnext]
      exact ih

/-- The order of calls on different investigations does not matter. -/
theorem serial_congr (h : Reachable s) (hdrawn : Drawn a s) {order order' : List ι}
    (hnodup : order.Nodup) (hnodup' : order'.Nodup) (hagree : Agree a order order') :
    SameRows (serial a order s) (serial a order' s) := by
  have hs := (h.serial (a := a) order).valid
  have hs' := (h.serial (a := a) order').valid
  obtain ⟨hplaybooks, hversions, hnodes, hedges, halerts⟩ := serial_tables (a := a) h order
  obtain ⟨hplaybooks', hversions', hnodes', hedges', halerts'⟩ := serial_tables (a := a) h order'
  have hsame := fun id => (serial_same h hdrawn hnodup hnodup' (hagree id)).1
  exact {
    playbooks := hplaybooks.trans hplaybooks'.symm
    versions := hversions.trans hversions'.symm
    nodes := hnodes.trans hnodes'.symm
    edges := hedges.trans hedges'.symm
    alerts := halerts.trans halerts'.symm
    investigations := by
      rw [List.perm_ext_iff_of_nodup hs.investigation_ids.of_map hs'.investigation_ids.of_map]
      intro i
      have hmem : ∀ t : Store, i ∈ t.investigations ↔ i ∈ t.investigationRows i.id := fun t => by
        simp [Store.investigationRows]
      rw [hmem, hmem, (hsame i.id).1]
    steps := by
      rw [List.perm_ext_iff_of_nodup hs.step_ids.of_map hs'.step_ids.of_map]
      intro r
      have hmem : ∀ t : Store, r ∈ t.steps ↔ r ∈ t.stepsOf r.investigationID := fun t => by
        simp [Store.stepsOf]
      rw [hmem, hmem, (hsame r.investigationID).2] }

end Interbellum
