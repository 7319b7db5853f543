import Interbellum.Guarantees.TornReads
import Interbellum.Server.Writes

/-!
# Starting an investigation

The server reads the alert, the version with its graph and the playbook one after the other,
and inserts the investigation afterwards. Others may commit in between.

* `start_checks_hold`: what was checked is true when the row is inserted, and in all later
  states.
-/

namespace Interbellum

open Txn (Around Run)

/-- Writes that insert no investigation leave the ids of those that are there. -/
theorem investigation_of_proper {ingests : Alert → Prop} {ws : List Write}
    (hws : ∀ w ∈ ws, w.Proper False ingests) (s : Store) :
    ∀ i ∈ (Txn.applyAll ws s).investigations, ∃ j ∈ s.investigations, j.id = i.id := by
  refine Txn.applyAll_preserves (P := Write.Proper False ingests)
    (I := fun t : Store => ∀ i ∈ t.investigations, ∃ j ∈ s.investigations, j.id = i.id) ?_ hws
    fun i hi => ⟨i, hi, rfl⟩
  intro t w hw ht
  cases w with
  | insertInvestigation i => exact hw.elim
  | setState id current status completedAt resolution =>
    intro i hi
    rcases mem_updateWhere.mp hi with ⟨hi, -⟩ | ⟨j, hj, -, rfl⟩
    · exact ht i hi
    · exact ht j hj
  | _ => exact ht

variable {ι : Type} [DecidableEq ι] {s : Store} {ops : ι → Operation}
  {trace : List (ι × Txn.Event)} {sys : Server ι} {k : ι} {event : Txn.Event}
  {i : Investigation}

/-- Only starting makes investigations. -/
theorem starting_step {before after : Server ι}
    (hat : Around k event (clients s ops) trace sys before after)
    (hi : i ∈ after.store.investigations) (hnew : ∀ j ∈ before.store.investigations, j.id ≠ i.id) :
    ∃ id now alertID versionID, ops k = .start id now alertID versionID := by
  obtain ⟨ws, hws, hstore⟩ := hat.writes (proper_clients s ops)
  cases hop : ops k with
  | start id now alertID versionID => exact ⟨id, now, alertID, versionID, rfl⟩
  | _ =>
    rw [hop] at hws
    rw [hstore] at hi
    obtain ⟨j, hj, hid⟩ := investigation_of_proper hws _ i hi
    exact absurd hid (hnew j hj)

/-- Whenever an investigation is there that was not there before, it was inserted by a client
that starts it. At this moment the version is published and handles the alert, and the
investigation stands at its root, completed if the root is terminal. In every later state the
version is still published, with the same root and graph, and still handles the alert. -/
theorem start_checks_hold {before after : Server ι} (h : Reachable s)
    (hat : Around k event (clients s ops) trace sys before after)
    (hi : i ∈ after.store.investigations) (hnew : ∀ j ∈ before.store.investigations, j.id ≠ i.id) :
    (∃ now, ops k = .start i.id now i.alertID i.playbookVersionID) ∧
    after.store = before.store.write (.insertInvestigation i) ∧
    ∃ v root, Bound before.store i v ∧ v.rootNodeID = some root.id ∧
      root ∈ before.store.nodesOf v.id ∧ i.currentNodeID = root.id ∧ Outcome root i ∧
      (i.status = .completed ↔ root.kind = .terminal) ∧
      Bound sys.store i v ∧ sys.store.graphOf v = before.store.graphOf v ∧
      ∀ p ∈ sys.store.playbooks, p.id = v.playbookID → ∀ a ∈ sys.store.alerts,
        a.id = i.alertID → p.alertType = a.alertType := by
  obtain ⟨id, now, alertID, versionID, hop⟩ := starting_step hat hi hnew
  obtain ⟨_, _, -, hbefore, hstep, hrest⟩ := hat
  have hkeeps : (ops k).call.Keeps rules (Begins id alertID versionID) (fun _ _ => True) s := by
    rw [hop]
    exact keeps_reply (start_begins h.valid id now alertID versionID) fun _ _ _ => trivial
  have hsame : after.store ≠ before.store := by
    intro he
    rw [he] at hi
    exact hnew i hi rfl
  have hbegins := ((tracked_clients h.valid ops).guarantee hkeeps hbefore hstep).resolve_left hsame
  obtain ⟨calls, htracked⟩ := h.tracked hbefore
  have hevolves : Evolves before.store sys.store :=
    (htracked.run ((Run.single hstep).append hrest)).2
  have hs : Valid sys.store := (h.run (hbefore.append ((Run.single hstep).append hrest))).valid
  generalize hafter : after.store = t at hbegins hi hsame
  cases hbegins with
  | nothing => exact absurd rfl hsame
  | @insert inv v root hid halert hversion hbound hroot hmem hcurrent houtcome =>
    have heq : i = inv := by
      rcases List.mem_append.mp hi with hi | hi
      · exact absurd rfl (hnew i hi)
      · exact List.mem_singleton.mp hi
    subst heq
    have hlater := hbound.evolves hevolves
    refine ⟨⟨now, by rw [hop, hid, halert, hversion]⟩, rfl, v, root, hbound, hroot, hmem, hcurrent,
      houtcome, ?_, hlater, hbound.graphOf hevolves, ?_⟩
    · rcases houtcome with ⟨hk, hstatus, -⟩ | ⟨hk, hstatus, -⟩ <;> simp [hk, hstatus]
    · obtain ⟨-, -, -, p', hp', hpid', a', ha', haid', htype⟩ := hlater
      intro p hp hpid a ha haid
      rw [List.inj_on_of_nodup_map hs.playbook_ids hp hp' (hpid.trans hpid'.symm),
        List.inj_on_of_nodup_map hs.alert_ids ha ha' (haid.trans haid'.symm)]
      exact htype

/-- The server before the investigation is started. -/
def Triage.alerted : Store :=
  after
    [.createPlaybook 1 2 7 ⟨"triage", "", "ddos", Triage.graph⟩, .publish 2 8,
     .createAlert 3 9 ⟨none, "ddos", "flood", "", none, 9⟩] Store.empty

/-- A client that starts an investigation, and one that copies the version meanwhile. -/
def Triage.startsAndCopies : Bool → Operation
  | false => .start 4 10 3 2
  | true => .createVersion 1 (some 2) 61 (fun k => 70 + k) 9

/-- The copy is committed between the reads of the client that starts and its insert. -/
theorem start_checks_hold_triage : ∃ (before after : Server Bool) (i : Investigation) (v : Version),
    before.store.versionNumbers 1 = [1, 2] ∧ i.id = 4 ∧
      after.store = before.store.write (.insertInvestigation i) ∧
      Bound before.store i v ∧ Bound after.store i v := by
  have hreachable : Reachable Triage.alerted := Reachable.empty.after _
  let i : Investigation := ⟨4, 3, 2, .inProgress, 10, 10, none, none⟩
  obtain ⟨trace, before, hrun, hnumbers, hnew, hinserts⟩ : ∃ trace before,
      Run (clients Triage.alerted Triage.startsAndCopies) trace before ∧
      before.store.versionNumbers 1 = [1, 2] ∧ (∀ j ∈ before.store.investigations, j.id ≠ 4) ∧
      (before.move false).map (fun m => m.2.store.investigations) = some [i] :=
    ⟨_, _, Txn.run_follow (List.replicate 6 false ++ List.replicate 30 true) _,
      by decide +kernel, by decide +kernel, by decide +kernel⟩
  obtain ⟨⟨event, after⟩, hmove, hafter⟩ := Option.map_eq_some_iff.mp hinserts
  have hi : i ∈ after.store.investigations := hafter ▸ List.mem_singleton_self i
  obtain ⟨-, hstore, v, -, hbound, -, -, -, -, -, hlater, -⟩ := start_checks_hold hreachable
    ⟨trace, [], rfl, hrun, Txn.step_of_move hmove, .nil after⟩ hi hnew
  exact ⟨before, after, i, v, hnumbers, rfl, hstore, hbound, hlater⟩

end Interbellum
