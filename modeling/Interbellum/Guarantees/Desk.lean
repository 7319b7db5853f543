import Interbellum.Guarantees.Linearizable
import Interbellum.Server.Desk

/-!
# The server keeps a desk

Whatever any number of clients do, interleaved statement by statement, amounts to actions on the
desk, one for each client at most, each of them an action that its client asked for.

* `refines_desk`: every run of the clients is a run of the desk.
-/

namespace Interbellum

open Txn (applyAll)

/-- The action on the desk that the operation asks for, if any. -/
def Operation.Takes : Operation → Action → Prop
  | .createAlert id _ input, action => action = .ingest id input.alertType
  | .publish v _, action => ∃ p, action = .publish v p
  | .start id _ alertID v, action => action = .start id alertID v
  | .decide a, action => action = .choose a.investigationID a.input.edgeID
  | .submit a, action => action = .choose a.investigationID a.input.edgeID
  | _, _ => False

/-! ## Decisions -/

variable {s : Store}

/-- What a decision call does to the committed state. -/
def Decides (a : Attempt) (t t' : Store) : Prop :=
  t' = t ∨ ∃ d ws, Accepts t a d ws ∧ t' = applyAll ws t

theorem attempt_decides (a : Attempt) (s : Store) :
    a.call.run.Keeps rules (Decides a) (Returns fun _ _ => True) s :=
  keeps_attempt (fun _ d ws _ _ haccepts => .inr ⟨d, ws, haccepts, rfl⟩)
    (fun _ _ _ _ _ _ _ _ _ => trivial) fun _ _ _ _ _ _ _ _ => trivial

theorem submit_decides (hs : Valid s) (a : Attempt) :
    a.submit.run.Keeps rules (Decides a) (Returns fun _ _ => True) s := by
  unfold Attempt.submit InvestigationService.submitDecision
  cases hvalid : InvestigationService.validateDecision a.input with
  | error e => exact fun _ _ _ => trivial
  | ok =>
    refine keeps_bind hs (attempt_decides a s) ?_
    rintro d u hu - -
    refine (get_keeps hu (fun _ => .inl rfl) a.investigationID).mono (fun _ _ h => h) ?_
    rintro (e | state) _ _ <;> trivial

theorem Decides.desk {a : Attempt} {t t' : Store} (h : Decides a t t') (ht : Valid t) :
    t'.desk = t.desk ∨ t.desk.Step (.choose a.investigationID a.input.edgeID) t'.desk := by
  rcases h with rfl | ⟨d, ws, haccepts, rfl⟩
  · exact .inl rfl
  · cases haccepts with
    | replay => exact .inl rfl
    | @advance i next edge step hid hadvances hedge hscan =>
      have hstep := hadvances.desk ht
      rw [hid, show (a.row t i edge).selectedEdgeID = a.input.edgeID from hedge] at hstep
      exact .inr hstep

/-! ## Runs -/

section

variable {ι : Type} [DecidableEq ι] {ops : ι → Operation} {trace : List (ι × Txn.Event)}
  {sys sys' : Server ι} {k : ι} {event : Txn.Event}

/-- One step of a client. -/
theorem desk_step (h : Reachable s) (hrun : Txn.Run (clients s ops) trace sys)
    (hstep : Txn.Step k event sys sys') : sys'.store.desk = sys.store.desk ∨
      ∃ action, (ops k).Takes action ∧ sys.store.desk.Step action sys'.store.desk := by
  have hs := (h.run hrun).valid
  have hs' : Valid sys'.store := (h.run (hrun.snoc hstep)).valid
  have hevolves : Evolves sys.store sys'.store := by
    obtain ⟨calls, htracked⟩ := h.tracked hrun
    exact (htracked.run (Txn.Run.single hstep)).2
  obtain ⟨ws, hws, hstore⟩ := (hstep.writes (hrun.writes (fun i => (ops i).may) k)).2
  have hguarantee : ∀ {G : Store → Store → Prop} {Q : _ → Store → Prop},
      (ops k).call.Keeps rules G Q s → sys'.store = sys.store ∨ G sys.store sys'.store :=
    fun hkeeps => (tracked_clients h.valid ops).guarantee hkeeps hrun hstep
  have hdesign : (∀ w ∈ ws, w.Designs fun _ => False) → sys'.store.desk = sys.store.desk := by
    intro hdesigns
    have hdesigned := designed_applyAll hdesigns sys.store
    rw [← hstore] at hdesigned
    exact hdesigned.desk_eq hs hs' hevolves fun v hv hp =>
      (hdesigned.old hs'.toDesign hevolves hv hp).resolve_left id
  have hread : (∀ w ∈ ws, False) → sys'.store.desk = sys.store.desk := by
    intro hnone
    rw [hstore, List.eq_nil_iff_forall_not_mem.mpr hnone]
    rfl
  cases hop : ops k with
  | createPlaybook => exact .inl (hdesign (by rwa [hop] at hws))
  | submitPlaybook => exact .inl (hdesign (by rwa [hop] at hws))
  | createVersion => exact .inl (hdesign (by rwa [hop] at hws))
  | replaceGraph => exact .inl (hdesign (by rwa [hop] at hws))
  | submitGraph => exact .inl (hdesign (by rwa [hop] at hws))
  | publish v now =>
    rw [hop] at hws
    have hdesigned := designed_applyAll hws sys.store
    rw [← hstore] at hdesigned
    refine (hdesigned.publish hs hs' hevolves).imp_right ?_
    rintro ⟨p, hp⟩
    exact ⟨_, ⟨p, rfl⟩, hp⟩
  | getPlaybook => exact .inl (hread (by rwa [hop] at hws))
  | getVersion => exact .inl (hread (by rwa [hop] at hws))
  | createAlert id now input =>
    rw [hop] at hws
    rw [hstore] at hs' ⊢
    refine (desk_insertAlerts (fun w hw => (hws w hw).1) hs hs').imp_right ?_
    exact fun hingest => ⟨_, rfl, hingest⟩
  | start id now alertID versionID =>
    have hbegins := hguarantee (Q := fun _ _ => True) (by
      rw [hop]
      exact keeps_reply (start_begins h.valid id now alertID versionID) fun _ _ _ => trivial)
    rcases hbegins with hsame | hbegins
    · exact .inl (by rw [hsame])
    · generalize sys'.store = t at hbegins hs' ⊢
      cases hbegins with
      | nothing => exact .inl rfl
      | insert hid halert hversion hbound hroot hmem hcurrent houtcome =>
        rw [← hcurrent] at hroot
        have hdesk := desk_insertInvestigation hs hs' hbound hroot
        rw [hid, halert, hversion] at hdesk
        exact .inr ⟨_, rfl, hdesk⟩
  | decide a =>
    have hdecides := hguarantee (Q := fun _ _ => True) (by
      rw [hop]
      exact keeps_reply (attempt_decides a s) fun _ _ _ => trivial)
    rcases hdecides with hsame | hdecides
    · exact .inl (by rw [hsame])
    · exact (hdecides.desk hs).imp_right fun hchoose => ⟨_, rfl, hchoose⟩
  | submit a =>
    have hdecides := hguarantee (Q := fun _ _ => True) (by
      rw [hop]
      exact keeps_reply (submit_decides h.valid a) fun _ _ _ => trivial)
    rcases hdecides with hsame | hdecides
    · exact .inl (by rw [hsame])
    · exact (hdecides.desk hs).imp_right fun hchoose => ⟨_, rfl, hchoose⟩
  | getInvestigation => exact .inl (hread (by rwa [hop] at hws))
  | report => exact .inl (hread (by rwa [hop] at hws))

/-- The client has changed the committed state. -/
def Acted (s : Store) (ops : ι → Operation) (trace : List (ι × Txn.Event)) (sys : Server ι)
    (k : ι) : Prop :=
  ∃ event before after, Txn.Around k event (clients s ops) trace sys before after ∧
    after.store ≠ before.store

theorem Acted.snoc {j : ι} (h : Acted s ops trace sys k) (hstep : Txn.Step j event sys sys') :
    Acted s ops (trace ++ [(j, event)]) sys' k := by
  obtain ⟨event', before, after, haround, heffect⟩ := h
  exact ⟨event', before, after, haround.snoc hstep, heffect⟩

theorem Acted.silent (h : Acted s ops trace sys k) (hs : Valid s)
    (hstep : Txn.Step k event sys sys') : sys'.store = sys.store := by
  obtain ⟨event', before, after, ⟨_, _, -, hpast, heffective, hlater⟩, heffect⟩ := h
  exact silent_after_effect hs hpast heffective heffect hlater hstep

/-- The actions on the desk that a run amounts to. -/
structure Performs (s : Store) (ops : ι → Operation) (trace : List (ι × Txn.Event))
    (sys : Server ι) (actions : List (ι × Action)) : Prop where
  run : s.desk.Run (actions.map Prod.snd) sys.store.desk
  asked : ∀ x ∈ actions, (ops x.1).Takes x.2
  once : (actions.map Prod.fst).Nodup
  order : (actions.map Prod.fst).Sublist (trace.map Prod.fst)
  acted : ∀ x ∈ actions, Acted s ops trace sys x.1

theorem Performs.stay {actions : List (ι × Action)} (h : Performs s ops trace sys actions)
    (hstep : Txn.Step k event sys sys') (hsame : sys'.store.desk = sys.store.desk) :
    Performs s ops (trace ++ [(k, event)]) sys' actions where
  run := by
    rw [hsame]
    exact h.run
  asked := h.asked
  once := h.once
  order := by
    rw [List.map_append]
    exact h.order.trans (List.sublist_append_left _ _)
  acted x hx := (h.acted x hx).snoc hstep

theorem Performs.snoc {actions : List (ι × Action)} (h : Performs s ops trace sys actions)
    (hs : Valid s) (hrun : Txn.Run (clients s ops) trace sys) (hstep : Txn.Step k event sys sys')
    (hchanged : sys'.store ≠ sys.store) {action : Action} (htakes : (ops k).Takes action)
    (hdesk : sys.store.desk.Step action sys'.store.desk) :
    Performs s ops (trace ++ [(k, event)]) sys' (actions ++ [(k, action)]) where
  run := by
    rw [List.map_append, List.map_singleton]
    exact .snoc h.run hdesk
  asked := by
    intro x hx
    rcases List.mem_append.mp hx with hx | hx
    · exact h.asked x hx
    · rw [List.mem_singleton.mp hx]
      exact htakes
  once := by
    rw [List.map_append, List.map_singleton, List.nodup_append]
    refine ⟨h.once, List.nodup_singleton k, ?_⟩
    intro _ hj j hk hjk
    obtain ⟨x, hx, rfl⟩ := List.mem_map.mp hj
    obtain rfl : x.1 = k := hjk.trans (List.mem_singleton.mp hk)
    exact hchanged ((h.acted x hx).silent hs hstep)
  order := by
    rw [List.map_append, List.map_append, List.map_singleton, List.map_singleton]
    exact h.order.append (.refl _)
  acted := by
    intro x hx
    rcases List.mem_append.mp hx with hx | hx
    · exact (h.acted x hx).snoc hstep
    · rw [List.mem_singleton.mp hx]
      exact ⟨event, sys, sys', ⟨trace, [], rfl, hrun, hstep, .nil _⟩, hchanged⟩

theorem run_performs (h : Reachable s) (hrun : Txn.Run (clients s ops) trace sys) :
    ∃ actions, Performs s ops trace sys actions := by
  induction hrun with
  | nil => exact ⟨[], .nil _, by simp, by simp, by simp, by simp⟩
  | @snoc mid sys' trace k event hrun hstep ih =>
    obtain ⟨actions, hactions⟩ := ih
    by_cases hchanged : sys'.store = mid.store
    · exact ⟨actions, hactions.stay hstep (congrArg Store.desk hchanged)⟩
    rcases desk_step h hrun hstep with hsame | ⟨action, htakes, hdesk⟩
    · exact ⟨actions, hactions.stay hstep hsame⟩
    · exact ⟨_, hactions.snoc h.valid hrun hstep hchanged htakes hdesk⟩

/-- Every run of the clients is a run of the desk, which stays coherent. Each action is one that
its client asked for, is taken at a step of this client, and is the only one that it takes. What
the tables say of the end of an investigation follows from the desk. -/
theorem refines_desk (h : Reachable s) (hrun : Txn.Run (clients s ops) trace sys) :
    (∃ actions : List (ι × Action), s.desk.Run (actions.map Prod.snd) sys.store.desk ∧
      (∀ x ∈ actions, (ops x.1).Takes x.2) ∧ (actions.map Prod.fst).Nodup ∧
        (actions.map Prod.fst).Sublist (trace.map Prod.fst)) ∧
    sys.store.desk.Coherent ∧
    ∀ i ∈ sys.store.investigations, ∃ p : Procedure,
      sys.store.desk.procedures i.playbookVersionID = some p ∧
        i.finalResolution = p.resolution i.currentNodeID ∧
          (i.status = .completed ↔ (p.resolution i.currentNodeID).isSome) := by
  obtain ⟨actions, hactions⟩ := run_performs h hrun
  have hs : Valid sys.store := (h.run hrun).valid
  exact ⟨⟨actions, hactions.run, hactions.asked, hactions.once, hactions.order⟩,
    h.valid.coherent.run hactions.run, fun i hi => hs.ended hi⟩

/-- A client that decides, one that starts another investigation, and one that brings an alert. -/
def Triage.works : Fin 3 → Operation
  | 0 => .decide (Triage.attempt 5 20 none)
  | 1 => .start 31 12 3 2
  | 2 => .createAlert 30 12 ⟨none, "phishing", "letter", "", none, 9⟩

/-- The three move in turns, and all of them get something done. Each action is that of its client,
and the first case has gone one step where the other one has not moved. -/
theorem refines_desk_triage : ∃ (trace : List (Fin 3 × Txn.Event)) (sys : Server (Fin 3))
    (actions : List (Fin 3 × Action)),
    (trace.take 4).map Prod.fst = [0, 1, 2, 0] ∧
    sys.store.alerts.map Alert.id = [3, 30] ∧
    (sys.store.investigations.map fun i => (i.id, i.currentNodeID)) = [(4, 11), (31, 10)] ∧
    Triage.started.desk.Run (actions.map Prod.snd) sys.store.desk ∧
    (∀ x ∈ actions, x ∈ [(0, .choose 4 20), (1, .start 31 3 2), (2, .ingest 30 "phishing")]) ∧
    (actions.map Prod.fst).Nodup ∧ (actions.map Prod.fst).Sublist (trace.map Prod.fst) ∧
    sys.store.desk.Coherent ∧
    ∀ i ∈ sys.store.investigations, ∃ p : Procedure,
      sys.store.desk.procedures i.playbookVersionID = some p ∧
        p.resolution i.currentNodeID = none := by
  obtain ⟨trace, sys, hrun, hturns, halerts, hcases, hopen⟩ : ∃ trace sys,
      Txn.Run (clients Triage.started Triage.works) trace sys ∧
      (trace.take 4).map Prod.fst = [0, 1, 2, 0] ∧ sys.store.alerts.map Alert.id = [3, 30] ∧
      (sys.store.investigations.map fun i => (i.id, i.currentNodeID)) = [(4, 11), (31, 10)] ∧
      ∀ i ∈ sys.store.investigations, i.finalResolution = none :=
    ⟨_, _, Txn.run_follow (List.replicate 12 [0, 1, 2]).flatten _, by decide +kernel,
      by decide +kernel, by decide +kernel, by decide +kernel⟩
  obtain ⟨⟨actions, hactions, hasked, honce, horder⟩, hcoherent, hended⟩ :=
    refines_desk Triage.reachable_started hrun
  refine ⟨trace, sys, actions, hturns, halerts, hcases, hactions, ?_, honce, horder, hcoherent,
    ?_⟩
  · rintro ⟨k, action⟩ hx
    match k, hasked _ hx with
    | 0, htakes =>
      rw [show action = .choose 4 20 from htakes]
      simp
    | 1, htakes =>
      rw [show action = .start 31 3 2 from htakes]
      simp
    | 2, htakes =>
      rw [show action = .ingest 30 "phishing" from htakes]
      simp
  · intro i hi
    obtain ⟨p, hp, hresolution, -⟩ := hended i hi
    exact ⟨p, hp, hresolution.symm.trans (hopen i hi)⟩

end

end Interbellum
