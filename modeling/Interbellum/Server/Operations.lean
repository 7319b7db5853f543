import Interbellum.Invariant.PlaybookOperations
import Interbellum.Invariant.Requests
import Interbellum.Service.PlaybookService
import Interbellum.Txn.Refinement
import Interbellum.Txn.Schedule

/-!
# The server and its clients

Any number of clients share the database, each with one operation to perform; a client that
retries is another client with the same request. `Reachable` are the committed states that
their interleaved statements lead to, also when clients disappear halfway and others come.

* `Operation.keeps`: every operation keeps the discipline.
* `Reachable.valid`: every reachable state is `Valid`.
* `Reachable.operation`, `run_in_turn`: running one operation after the other is one way to
  interleave them.
-/

namespace Interbellum

inductive Operation where
  | createPlaybook (playbookID versionID : UUID) (now : Time) (input : NewPlaybook)
  | submitPlaybook (playbookID versionID : UUID) (now : Time) (input : NewPlaybook)
  | createVersion (playbookID : UUID) (cloneFrom : Option UUID) (versionID : UUID)
      (fresh : Nat → UUID) (now : Time)
  | replaceGraph (versionID : UUID) (g : Graph)
  | submitGraph (versionID : UUID) (g : Graph)
  | publish (versionID : UUID) (now : Time)
  | getPlaybook (id : UUID)
  | getVersion (versionID : UUID)
  | createAlert (id : UUID) (now : Time) (input : NewAlert)
  | start (investigationID : UUID) (now : Time) (alertID versionID : UUID)
  | decide (a : Attempt)
  | submit (a : Attempt)
  | getInvestigation (id : UUID)
  | report (id : UUID)

inductive Reply where
  | playbook (p : Playbook) (d : Definition)
  | definition (d : Definition)
  | versions (p : Playbook) (versions : List Version)
  | alert (a : Alert) (created : Bool)
  | state (state : InvestigationService.State)
  | decision (d : DecisionResult)
  | report (r : InvestigationService.Report)
  deriving DecidableEq

abbrev Client := Txn.Call Store Write LockKey (Except AppError Reply)

def reply {β : Type} (f : β → Reply) (x : Svc β) : Client := Except.map f <$> x.run

namespace Operation

/-- `createPlaybook` and `replaceGraph` are the calls of the repository, `submitPlaybook` and
`submitGraph` those of the service, which checks the request first. -/
def call : Operation → Client
  | .createPlaybook p v now input =>
    reply (fun r => .playbook r.1 r.2) (PlaybookRepository.create p v now input)
  | .submitPlaybook p v now input =>
    reply (fun r => .playbook r.1 r.2) (PlaybookService.create p v now input)
  | .createVersion p cloneFrom v fresh now =>
    reply .definition (PlaybookRepository.createVersion p cloneFrom v fresh now)
  | .replaceGraph v g => reply .definition (PlaybookRepository.replaceGraph v g)
  | .submitGraph v g => reply .definition (PlaybookService.replaceGraph v g)
  | .publish v now => reply .definition (PlaybookRepository.publish v now)
  | .getPlaybook id => reply (fun r => .versions r.1 r.2) (PlaybookRepository.get id)
  | .getVersion v => reply .definition (PlaybookRepository.getVersion v)
  | .createAlert id now input => reply (fun r => .alert r.1 r.2) (AlertService.create id now input)
  | .start id now alertID v => reply .state (InvestigationService.start id now alertID v)
  | .decide a => reply .decision a.call
  | .submit a => reply .state a.submit
  | .getInvestigation id => reply .state (InvestigationService.get id)
  | .report id => reply .report (InvestigationService.report id)

/-- The version whose graph the operation replaces. -/
def replaces : Operation → Option UUID
  | .replaceGraph v _ | .submitGraph v _ => some v
  | _ => none

/-- The steps the operation may record. -/
def Records : Operation → StepRow → Prop
  | .decide a | .submit a => a.Records
  | _ => fun _ => False

/-- What is known of the answer to an operation that was sent in `s` and answered in `u`. -/
def Answers (s : Store) : Operation → Except AppError Reply → Store → Prop
  | .decide a => Returns fun r u => ∃ d, r = .decision d ∧ ∃ t ws, Valid t ∧ Evolves s t ∧
      Accepts t a d ws ∧ Evolves (Txn.applyAll ws t) u
  | .submit a => Returns fun r u => ∃ state, r = .state state ∧ ∃ t d ws, Valid t ∧
      Evolves s t ∧ Accepts t a d ws ∧ d.step ∈ state.steps ∧
        Viewed (Txn.applyAll ws t) a.investigationID stateView (.ok state) u
  | .getInvestigation id => fun r u => ∃ r', Viewed s id stateView r' u ∧ r = r'.map .state
  | .report id => fun r u => ∃ r', Viewed s id reportView r' u ∧ r = r'.map .report
  | _ => fun _ _ => True

end Operation

theorem keeps_reply {β : Type} {G : Store → Store → Prop} {f : β → Reply} {x : Svc β} {s : Store}
    {Q : Except AppError β → Store → Prop} {Q' : Except AppError Reply → Store → Prop}
    (h : x.run.Keeps rules G Q s) (hQ : ∀ r u, Q r u → Q' (r.map f) u) :
    (reply f x).Keeps rules G Q' s :=
  Txn.Call.Keeps.map (h.mono (fun _ _ hG => hG) hQ)

theorem run_reply {β : Type} (f : β → Reply) (x : Svc β) (s : Store) :
    (reply f x).run s = ((x.run.run s).1.map f, (x.run.run s).2) := Txn.Call.run_map _ _ _

/-- A request that begins with a transaction decides in it, as it does alone. -/
theorem act_inTx {β : Type} (next : Except AppError β → Client) {body : Db β} {s s' : Store}
    {c : Client}
    (hact : Txn.Call.act (.tx body.run fun r => next (r.mapError translate)) s = some (c, s')) :
    c = next ((inTx body).run.run s).1 ∧ s' = ((inTx body).run.run s).2 := by
  rw [run_inTx]
  simp only [Txn.Call.act] at hact
  rcases hr : body.run.run s [] with ⟨e | b, ws⟩
  · rw [hr] at hact
    obtain ⟨rfl, rfl⟩ := Prod.mk.inj (Option.some.inj hact)
    exact ⟨rfl, rfl⟩
  · rw [hr] at hact
    obtain ⟨rfl, rfl⟩ := Prod.mk.inj (Option.some.inj hact)
    exact ⟨rfl, rfl⟩

/-- A request that is one transaction, and nothing before or after it. -/
theorem single_inTx {β : Type} (f : β → Reply) (body : Db β) : (reply f (inTx body)).Single := by
  intro s c s' hact
  exact ⟨_, (act_inTx (fun r => .ret (r.map f)) hact).1⟩

theorem decide_call (a : Attempt) : (Operation.decide a).call =
    .tx a.body.run fun r => .ret ((r.mapError translate).map .decision) := rfl

theorem act_decide {a : Attempt} {s s' : Store} {c : Client}
    (hact : (Operation.decide a).call.act s = some (c, s')) :
    c = .ret ((a.call.run.run s).1.map .decision) ∧ s' = (a.call.run.run s).2 :=
  act_inTx (fun r => .ret (r.map .decision)) hact

theorem single_checked {β : Type} (f : β → Reply) (check : Except AppError Unit) (body : Db β) :
    (reply f (PlaybookService.checked check (inTx body))).Single := by
  cases check with
  | error e => exact fun _ _ _ hact => nomatch hact
  | ok => exact single_inTx f body

theorem keeps_checked_request {β : Type} {G : Store → Store → Prop} {check : Except AppError Unit}
    {k : Svc β} {s : Store} (h : k.run.Keeps rules G (fun _ _ => True) s) :
    (PlaybookService.checked check k).run.Keeps rules G (fun _ _ => True) s := by
  cases check with
  | error e => exact fun _ _ _ => trivial
  | ok => exact h

theorem Operation.keeps (op : Operation) {s : Store} (hs : Valid s) :
    op.call.Keeps rules (Footprint op.replaces op.Records) (op.Answers s) s := by
  have hG : ∀ t, Footprint none (fun _ => False) t t := Footprint.refl _ _
  cases op with
  | createPlaybook p v now input =>
    exact keeps_reply (create_keeps p v now input s) fun _ _ _ => trivial
  | submitPlaybook p v now input =>
    exact keeps_reply (keeps_checked_request (create_keeps p v now input s)) fun _ _ _ => trivial
  | createVersion p cloneFrom v fresh now =>
    exact keeps_reply (createVersion_keeps p cloneFrom v fresh now s) fun _ _ _ => trivial
  | replaceGraph v g => exact keeps_reply (replaceGraph_keeps v g s) fun _ _ _ => trivial
  | submitGraph v g =>
    exact keeps_reply (keeps_checked_request (replaceGraph_keeps v g s)) fun _ _ _ => trivial
  | publish v now => exact keeps_reply (publish_keeps v now s) fun _ _ _ => trivial
  | getPlaybook id => exact keeps_reply (keeps_getPlaybook hs hG id) fun _ _ _ => trivial
  | getVersion v => exact keeps_reply (keeps_getVersion hs hG v) fun _ _ _ => trivial
  | createAlert id now input =>
    exact keeps_reply (createAlert_keeps hs id now input) fun _ _ _ => trivial
  | start id now alertID v =>
    exact keeps_reply (start_keeps hs id now alertID v) fun _ _ _ => trivial
  | decide a =>
    refine keeps_reply (attempt_keeps s a) ?_
    rintro (e | d) u h
    · trivial
    · exact ⟨d, rfl, h⟩
  | submit a =>
    refine keeps_reply (submit_keeps hs a) ?_
    rintro (e | state) u h
    · trivial
    · exact ⟨state, rfl, h⟩
  | getInvestigation id =>
    exact keeps_reply (get_keeps hs hG id) fun r _ h => ⟨r, h, rfl⟩
  | report id => exact keeps_reply (report_keeps hs hG id) fun r _ h => ⟨r, h, rfl⟩

/-! ## The system -/

abbrev Server (ι : Type) := Txn.System ι Store Write LockKey (Except AppError Reply)

/-- The clients before their first statement. -/
def clients {ι : Type} (s : Store) (ops : ι → Operation) : Server ι :=
  ⟨s, fun i => .idle (ops i).call⟩

inductive Reachable : Store → Prop
  | empty : Reachable Store.empty
  | run {ι : Type} [DecidableEq ι] {s : Store} {ops : ι → Operation}
      {trace : List (ι × Txn.Event)} {sys : Server ι} (h : Reachable s)
      (hrun : Txn.Run (clients s ops) trace sys) : Reachable sys.store

/-- The link between the interleaved clients and their calls in whole transactions. -/
abbrev Tracked {ι : Type} (s : Store) (ops : ι → Operation) (sys : Server ι)
    (calls : ι → Client) : Prop :=
  Txn.Linked rules (fun i => Footprint (ops i).replaces (ops i).Records)
    (fun i => (ops i).Answers s) sys calls

section

variable {ι : Type} [DecidableEq ι] {s : Store} {ops : ι → Operation}
  {trace : List (ι × Txn.Event)} {sys : Server ι}

omit [DecidableEq ι] in
theorem tracked_clients (hs : Valid s) (ops : ι → Operation) :
    Tracked s ops (clients s ops) fun i => (ops i).call :=
  Txn.linked_init hs fun i => (ops i).keeps hs

theorem tracked_run (hs : Valid s) (hrun : Txn.Run (clients s ops) trace sys) :
    ∃ calls, Tracked s ops sys calls := ((tracked_clients hs ops).run hrun).1

theorem Reachable.valid (h : Reachable s) : Valid s := by
  induction h with
  | empty => exact valid_empty
  | run _ hrun ih =>
    obtain ⟨calls, htracked⟩ := tracked_run ih hrun
    exact htracked.inv

theorem Reachable.tracked (h : Reachable s) (hrun : Txn.Run (clients s ops) trace sys) :
    ∃ calls, Tracked s ops sys calls := tracked_run h.valid hrun

/-- What clients have done, later states have evolved from. -/
theorem Reachable.evolves (h : Reachable s) (hrun : Txn.Run (clients s ops) trace sys) :
    Evolves s sys.store := ((tracked_clients h.valid ops).run hrun).2

/-- What a client is told by a request that it sends from here on. -/
theorem Reachable.answers_later (h : Reachable s) (hrun : Txn.Run (clients s ops) trace sys)
    {later : List (ι × Txn.Event)} {sys' : Server ι} (hlater : Txn.Run sys later sys') {k : ι}
    (hsent : sys.session k = .idle (ops k).call) {r : Except AppError Reply}
    (hanswer : sys'.session k = .idle (.ret r)) : (ops k).Answers sys.store r sys'.store := by
  obtain ⟨calls, htracked⟩ := h.tracked hrun
  have hcall := (ops k).keeps htracked.inv
  rw [← htracked.call_of_idle hsent] at hcall
  obtain ⟨⟨calls', hlinked⟩, -⟩ := (htracked.retarget hcall).run hlater
  have hr := hlinked.answer hanswer
  rwa [Function.update_self] at hr

/-- A client that has the server to itself. -/
theorem run_operation (s : Store) (op : Operation) : ∃ trace,
    Txn.Run (clients s fun _ : Unit => op) trace
      ((clients s fun _ : Unit => op).put () (.idle (.ret (op.call.run s).1))
        (op.call.run s).2) :=
  Txn.run_alone op.call (fun _ h => absurd rfl h) rfl

theorem Reachable.operation (h : Reachable s) (op : Operation) :
    Reachable (op.call.run s).2 := by
  obtain ⟨trace, hrun⟩ := run_operation s op
  exact .run h hrun

end

/-- The state after some operations one after the other, each succeeding or failing. -/
def after (ops : List Operation) (s : Store) : Store :=
  ops.foldl (fun s op => (op.call.run s).2) s

theorem Reachable.after {s : Store} (h : Reachable s) (ops : List Operation) :
    Reachable (after ops s) := by
  induction ops generalizing s with
  | nil => exact h
  | cons op rest ih => exact ih (h.operation op)

theorem after_concat (ops : List Operation) (op : Operation) (s : Store) :
    after (ops ++ [op]) s = (op.call.run (after ops s)).2 := List.foldl_append

/-- Clients that take turns are one way to interleave them. -/
theorem run_in_turn {ι : Type} [DecidableEq ι] (s : Store) (ops : ι → Operation) {order : List ι}
    (hnodup : order.Nodup) : ∃ trace sys, Txn.Run (clients s ops) trace sys ∧
      sys.store = after (order.map ops) s ∧
      (∀ k ∈ order, ∃ r, sys.session k = .idle (.ret r)) ∧
      ∀ k ∉ order, sys.session k = .idle (ops k).call := by
  induction order using List.reverseRecOn with
  | nil => exact ⟨[], _, .nil _, rfl, by simp, fun _ _ => rfl⟩
  | append_singleton order k ih =>
    obtain ⟨horder, -, hdisjoint⟩ := List.nodup_append.mp hnodup
    have hk : k ∉ order := fun hmem => hdisjoint k hmem k (List.mem_singleton_self k) rfl
    obtain ⟨trace, sys, hrun, hstore, hanswered, hwaiting⟩ := ih horder
    have halone : sys.Alone k := by
      intro j _
      by_cases hj : j ∈ order
      · obtain ⟨r, hr⟩ := hanswered j hj
        rw [hr]
        rfl
      · rw [hwaiting j hj]
        rfl
    obtain ⟨trace', hrun'⟩ := Txn.run_alone _ halone (hwaiting k hk)
    refine ⟨_, _, hrun.append hrun', ?_, ?_, ?_⟩
    · rw [List.map_append, List.map_singleton, after_concat, ← hstore]
      rfl
    · intro j hj
      by_cases hjk : j = k
      · subst hjk
        exact ⟨_, Txn.System.put_self ..⟩
      · rw [Txn.System.put_of_ne _ _ _ hjk]
        refine hanswered j ((List.mem_append.mp hj).resolve_right ?_)
        exact fun hmem => hjk (List.mem_singleton.mp hmem)
    · intro j hj
      rw [List.mem_append, List.mem_singleton, not_or] at hj
      rw [Txn.System.put_of_ne _ _ _ hj.2]
      exact hwaiting j hj.1

/-! ## A small server

A playbook of two decisions, published, and an investigation of an alert that has just been
started. The results below are applied to states of it. -/

namespace Triage

def graph : Graph where
  rootNodeID := some 10
  nodes :=
    [⟨10, .decision, "Is it real?", "", none, none⟩, ⟨11, .decision, "Is it over?", "", none, none⟩,
     ⟨12, .terminal, "Done", "", some "resolved", none⟩]
  edges := [⟨20, 10, 11, "yes", none, 0⟩, ⟨21, 10, 12, "no", none, 1⟩, ⟨22, 11, 12, "yes", none, 0⟩]

def started : Store :=
  after
    [.createPlaybook 1 2 7 ⟨"triage", "", "ddos", graph⟩, .publish 2 8,
     .createAlert 3 9 ⟨none, "ddos", "flood", "", none, 9⟩, .start 4 10 3 2] Store.empty

/-- A decision of a human who selects an edge, for the investigation that was started. -/
def attempt (stepID edgeID : UUID) (key : Option String) : Attempt :=
  ⟨stepID, 11, 11, 4, ⟨edgeID, ⟨.human, none⟩, none, [], key⟩⟩

theorem reachable_started : Reachable started := Reachable.empty.after _

/-- The investigation has taken both of its decisions, and is over. -/
def completed : Store := after [.decide (attempt 5 20 none), .decide (attempt 6 22 none)] started

theorem reachable_completed : Reachable completed := reachable_started.after _

/-- The draft of a playbook that has not been published yet. -/
def drafted : Store :=
  after [.createPlaybook 1 2 7 ⟨"triage", "", "ddos", graph⟩] Store.empty

/-- Another graph for it, of a single node. -/
def replacement : Graph := ⟨some 13, [⟨13, .terminal, "Done", "", some "resolved", none⟩], []⟩

theorem reachable_drafted : Reachable drafted := Reachable.empty.after _

end Triage

end Interbellum
