import Interbellum.Guarantees.Retries
import Interbellum.Http.Handlers

/-!
# Which requests are replays

The second request under a key is compared with the recorded one in the database. This module
says what the comparison means for the bodies of the two requests.

* `equivalent_iff`: a recorded request is equivalent to another when they are the same.
* `keeps_again`, `told_again`: what a call under a recorded key is told.
* `replayed_iff_same`: the second request is a replay when it is the same and can be stored.
-/

namespace Interbellum

open InvestigationRepository
open Http (SubmitDecisionRequest)

variable {s : Store} {a : Attempt} {row : StepRow}

/-! ## The comparison -/

theorem toEvidenceItems_stored {xs ys : Option (List Http.EvidenceItem)} :
    (Http.toEvidenceItems xs).map EvidenceItem.stored =
        (Http.toEvidenceItems ys).map EvidenceItem.stored ↔
      List.Forall₂ Http.EvidenceItem.Same (xs.getD []) (ys.getD []) := by
  have hitem : ∀ x y : Http.EvidenceItem,
      EvidenceItem.stored ⟨x.type, x.summary, Http.marshalObject x.data⟩ =
        EvidenceItem.stored ⟨y.type, y.summary, Http.marshalObject y.data⟩ ↔ x.Same y := by
    intro x y
    simp only [EvidenceItem.stored, EvidenceItem.mk.injEq, Http.marshalObject_same]
    constructor
    · rintro ⟨htype, hsummary, hdata⟩
      exact ⟨htype, hsummary, hdata⟩
    · rintro ⟨htype, hsummary, hdata⟩
      exact ⟨htype, hsummary, hdata⟩
  rw [← List.forall₂_eq_eq_eq]
  simp only [Http.toEvidenceItems, List.forall₂_map_left_iff, List.forall₂_map_right_iff, hitem]

/-- The row records what the request says. -/
structure StepRow.Holds (row : StepRow) (request : SubmitDecisionRequest) : Prop where
  edge : row.selectedEdgeID = request.edgeID
  actor : row.actor = ⟨Http.actorType request.actor.type, request.actor.id⟩
  rationale : row.rationale = request.rationale
  evidence : row.evidence = (encodeEvidence (Http.toEvidenceItems request.evidence)).map Json.jsonb

/-- A recorded request is equivalent to another when they are the same. -/
theorem equivalent_iff {request other : SubmitDecisionRequest} {key : Option String}
    (h : row.Holds request) :
    equivalent row (other.toDecisionInput key) = true ↔ request.Same other := by
  simp only [equivalent, Bool.and_eq_true, decide_eq_true_eq]
  simp only [h.edge, h.actor, h.rationale, h.evidence, SubmitDecisionRequest.toDecisionInput,
    encodeEvidence_inj, toEvidenceItems_stored, Http.actorType_injective.eq_iff]
  constructor
  · rintro ⟨⟨⟨⟨hedge, htype⟩, hid⟩, hrationale⟩, hevidence⟩
    exact ⟨hedge, htype, hid, hrationale, hevidence⟩
  · rintro ⟨hedge, htype, hid, hrationale, hevidence⟩
    exact ⟨⟨⟨⟨hedge, htype⟩, hid⟩, hrationale⟩, hevidence⟩

/-! ## The second call -/

/-- The reply is about the recorded step `row`. -/
def Recognised (row : StepRow) : Reply → Prop
  | .decision d => d.replayed = true ∧ scanStep row = .ok d.step
  | .state state => ∃ step ∈ state.steps, scanStep row = .ok step
  | _ => False

/-- The answer of a replay of the recorded step `row`. -/
def Replayed (row : StepRow) (r : Except AppError Reply) : Prop :=
  ∃ reply, r = .ok reply ∧ Recognised row reply

/-- What a decision or a submission under the key of the recorded step `row` is told. -/
structure ToldAgain (row : StepRow) (a : Attempt) (r : Except AppError Reply) : Prop where
  replayed : storableInput a.input = true → equivalent row a.input = true → Replayed row r
  reused : storableInput a.input = true → equivalent row a.input = false →
    ∃ e : AppError, r = .error e ∧ e.code = .idempotencyKeyReused
  unstorable : storableInput a.input = false → r = .error .internal

theorem Retried.decision {r : Except AppError DecisionResult} (h : Retried row a r) :
    ToldAgain row a (r.map .decision) where
  replayed hstorable hequivalent := by
    obtain ⟨d, rfl, hreplayed, hscan⟩ := h.replayed hstorable hequivalent
    exact ⟨_, rfl, hreplayed, hscan⟩
  reused hstorable hequivalent := by
    obtain ⟨e, rfl, he⟩ := h.reused hstorable hequivalent
    exact ⟨e, rfl, he⟩
  unstorable hstorable := by
    rw [h.unstorable hstorable]
    rfl

/-- A submission that is not recognised ends with the error of its transaction. -/
theorem Retried.error {e : AppError} (h : Retried row a (.error e)) :
    ToldAgain row a (.error e) where
  replayed hstorable hequivalent := by
    obtain ⟨d, hd, -⟩ := h.replayed hstorable hequivalent
    cases hd
  reused hstorable hequivalent := by
    obtain ⟨e', he', hcode⟩ := h.reused hstorable hequivalent
    exact ⟨e', congrArg _ (Except.error.inj he'), hcode⟩
  unstorable hstorable := by
    rw [Except.error.inj (h.unstorable hstorable)]

theorem Retried.storable {d : DecisionResult} (h : Retried row a (.ok d)) :
    storableInput a.input = true ∧ equivalent row a.input = true := by
  have hstorable : storableInput a.input = true := by
    by_contra hne
    cases h.unstorable (by simpa using hne)
  refine ⟨hstorable, ?_⟩
  by_contra hne
  obtain ⟨e, he, -⟩ := h.reused hstorable (by simpa using hne)
  cases he

/-- A call under a recorded key changes nothing, and is told about that key. -/
theorem keeps_again {op : Operation} (hop : op = .decide a ∨ op = .submit a) (hs : Valid s)
    (hvalid : InvestigationService.validateDecision a.input = .ok ()) (h : a.Recorded s row) :
    op.call.Keeps rules (fun t u => u = t) (fun r _ => ToldAgain row a r) s := by
  rcases hop with rfl | rfl
  · exact keeps_reply (keeps_retry h) fun r _ hr => hr.decision
  · refine keeps_reply (Q := fun r _ => ToldAgain row a (r.map .state)) ?_ fun _ _ hr => hr
    unfold Attempt.submit InvestigationService.submitDecision
    rw [hvalid]
    refine .bind_except hs (keeps_retry h).reached ?_ ?_
    · rintro d t ht hst ⟨-, -, hretried⟩
      obtain ⟨hstorable, hequivalent⟩ := hretried.storable
      refine (get_keeps (G := fun t u => u = t) ht (fun _ => rfl) a.investigationID).mono
        (fun _ _ hG => hG) ?_
      rintro r u hviewed
      obtain ⟨key, -, hrow, -⟩ := h.evolves hst
      obtain ⟨x, i, v, al, n, steps, hx, -, hkept, hshown, rfl⟩ := hviewed.shown_of_step hrow
      obtain ⟨step, hscan⟩ := (hx.readable hkept).scan
      have hmem := mem_scanSteps hshown.steps hkept hscan
      exact {
        replayed := fun _ _ => ⟨_, rfl, step, hmem, hscan⟩
        reused := fun _ hne => by
          rw [hequivalent] at hne
          cases hne
        unstorable := fun hne => by
          rw [hstorable] at hne
          cases hne }
    · rintro e t ⟨-, -, hretried⟩ u - -
      exact hretried.error

/-! ## The two requests -/

section

variable {ι : Type} [DecidableEq ι] {ops : ι → Operation} {trace later : List (ι × Txn.Event)}
  {sys sys' before after : Server ι} {j k : ι} {event : Txn.Event}
  {request other : SubmitDecisionRequest}

/-- The step that a client records holds its request. -/
theorem recorded_request (h : Reachable s) (hop : ops k = .decide a ∨ ops k = .submit a)
    (hrun : Txn.Run (clients s ops) trace before) (hstep : Txn.Step k event before after)
    (hsteps : after.store.steps ≠ before.store.steps) {key : Option String}
    (hinput : a.input = request.toDecisionInput key) :
    ∃ row ∈ after.store.stepsOf a.investigationID,
      after.store.steps = before.store.steps ++ [row] ∧ row.Holds request ∧
        row.idempotencyKey = key := by
  have hchanged : after.store ≠ before.store := fun hsame => hsteps (congrArg Store.steps hsame)
  obtain ⟨-, ⟨i, next, e, step, hadvances, -, hid, hedge, -, hafter⟩, -⟩ :=
    decision_step h hop hrun hstep hchanged
  refine ⟨a.row before.store i e, ?_, ?_, ⟨?_, ?_, ?_, ?_⟩, ?_⟩
  · rw [hafter, ← hid]
    exact hadvances.mem_stepsOf
  · rw [hafter]
    rfl
  · show e.id = request.edgeID
    rw [hedge, hinput]
    rfl
  · show a.input.actor = _
    rw [hinput]
    rfl
  · show a.input.rationale = _
    rw [hinput]
    rfl
  · show (encodeEvidence a.input.evidence).map Json.jsonb = _
    rw [hinput]
    rfl
  · show a.input.idempotencyKey = key
    rw [hinput]
    rfl

/-- A client that is about to send its request under the recorded key changes nothing, and is told
about that key, whatever the others do. -/
theorem told_again {b : Attempt} (h : Reachable s) (hrun : Txn.Run (clients s ops) trace sys)
    (hk : ops k = .decide b ∨ ops k = .submit b) (hb : b.Recorded sys.store row)
    (hvalid : InvestigationService.validateDecision b.input = .ok ())
    (hsent : sys.session k = .idle (ops k).call) (hlater : Txn.Run sys later sys') :
    (∀ event before after, Txn.Around k event sys later sys' before after →
      after.store = before.store) ∧
    ∀ r, sys'.session k = .idle (.ret r) → ToldAgain row b r := by
  obtain ⟨calls, htracked⟩ := h.tracked hrun
  have hkeeps := keeps_again hk htracked.inv hvalid hb
  rw [← htracked.call_of_idle hsent] at hkeeps
  constructor
  · rintro event before after ⟨u, u', rfl, hbefore, hstep, -⟩
    exact htracked.silent hkeeps hbefore hstep
  · intro r hanswer
    obtain ⟨⟨calls', hlinked⟩, -⟩ := (htracked.retarget hkeeps).run hlater
    have htold := hlinked.answer hanswer
    rwa [Function.update_self] at htold

/-- What has been recorded is still there for a later request under the same key. -/
theorem recorded_later {b : Attempt} {key : String} (h : Reachable s)
    (hbefore : Txn.Run (clients s ops) trace before) (hstep : Txn.Step j event before after)
    (hafter : Txn.Run after later sys) (hrow : row ∈ after.store.stepsOf b.investigationID)
    (hrowkey : row.idempotencyKey = some key) (hkey : b.input.idempotencyKey = some key) :
    b.Recorded sys.store row := by
  obtain ⟨calls, htracked⟩ := h.tracked (.snoc hbefore hstep)
  exact ⟨key, hkey, ((htracked.run hafter).2.steps _).subset hrow, hrowkey⟩

/-- After a request has been recorded under a key, another request under this key should be a
replay if and only if it is the same: the edge, the actor and the rationale are equal, and the
evidence is item by item, with data compared as JSON values. This is so exactly if it is a
different one or the database can store it. A different one is told that the key is taken. -/
theorem replayed_iff_same (h : Reachable s) (hrun : Txn.Run (clients s ops) trace sys)
    {a b : Attempt} {key : String} (hj : ops j = .decide a ∨ ops j = .submit a)
    (hrequest : a.input = request.toDecisionInput (some key))
    (haround : Txn.Around j event (clients s ops) trace sys before after)
    (hrecorded : after.store.steps ≠ before.store.steps)
    (hk : ops k = .decide b ∨ ops k = .submit b)
    (hother : b.input = other.toDecisionInput (some key))
    (hinvestigation : b.investigationID = a.investigationID)
    (hvalid : InvestigationService.validateDecision b.input = .ok ())
    (hsent : sys.session k = .idle (ops k).call) (hlater : Txn.Run sys later sys') :
    ∃ row, after.store.steps = before.store.steps ++ [row] ∧
      (∀ event before after, Txn.Around k event sys later sys' before after →
        after.store = before.store) ∧
      ∀ r, sys'.session k = .idle (.ret r) →
        ((Replayed row r ↔ request.Same other) ↔
          ¬ request.Same other ∨ storableInput b.input = true) ∧
        (Replayed row r ↔ request.Same other ∧ storableInput b.input = true) ∧
        (storableInput b.input = true → ¬ request.Same other →
          ∃ e : AppError, r = .error e ∧ e.code = .idempotencyKeyReused) ∧
        (storableInput b.input = false → r = .error .internal) := by
  obtain ⟨t, t', rfl, hbefore, hstep, hafter⟩ := haround
  obtain ⟨row, hrow, hsteps, hholds, hrowkey⟩ :=
    recorded_request h hj hbefore hstep hrecorded hrequest
  have hb : b.Recorded sys.store row := by
    rw [← hinvestigation] at hrow
    exact recorded_later h hbefore hstep hafter hrow hrowkey (by rw [hother]; rfl)
  have hequivalent : equivalent row b.input = true ↔ request.Same other := by
    rw [hother]
    exact equivalent_iff hholds
  obtain ⟨hunchanged, hanswers⟩ := told_again h hrun hk hb hvalid hsent hlater
  refine ⟨row, hsteps, hunchanged, fun r hanswer => ?_⟩
  have htold := hanswers r hanswer
  have hreplayed : Replayed row r ↔ request.Same other ∧ storableInput b.input = true := by
    constructor
    · rintro ⟨reply, rfl, -⟩
      have hstorable : storableInput b.input = true := by
        by_contra hne
        cases htold.unstorable (by simpa using hne)
      refine ⟨?_, hstorable⟩
      by_contra hne
      rw [← hequivalent] at hne
      obtain ⟨e, he, -⟩ := htold.reused hstorable (by simpa using hne)
      cases he
    · exact fun ⟨hsame, hstorable⟩ => htold.replayed hstorable (hequivalent.mpr hsame)
  refine ⟨by rw [hreplayed]; tauto, hreplayed, ?_, htold.unstorable⟩
  · intro hstorable hne
    rw [← hequivalent] at hne
    exact htold.reused hstorable (by simpa using hne)

end

/-- A request of a human who selects an edge, with one item of evidence that has a member `k`. -/
def Triage.body (edgeID : UUID) (value : JsonText.Doc) : SubmitDecisionRequest :=
  ⟨edgeID, ⟨"human", none⟩, none, some [⟨"log", "seen", some [("k", value)]⟩]⟩

/-- The request as an attempt on the investigation that was started. -/
def Triage.submission (stepID : UUID) (body : SubmitDecisionRequest) : Attempt :=
  ⟨stepID, 11, 11, 4, body.toDecisionInput (some "key")⟩

/-- Of two clients that send the same request, the second is told of the step of the first. -/
theorem replayed_iff_same_triage : ∃ row, Replayed row
    ((Operation.decide (Triage.submission 5 (Triage.body 20 (.bool true)))).call.run
      (after [.decide (Triage.submission 5 (Triage.body 20 (.bool true)))] Triage.started)).1 := by
  obtain ⟨trace, sys, hrun, hstore, hanswered, hwaiting⟩ := run_in_turn Triage.started
    (fun _ : Bool => .decide (Triage.submission 5 (Triage.body 20 (.bool true))))
    (by decide : [false].Nodup)
  have hsteps : sys.store.steps ≠ [] := by
    rw [hstore]
    decide +kernel
  obtain ⟨j, event, before, after, haround, hbefore, hafter⟩ :=
    hrun.becomes (P := fun t : Store => t.steps ≠ []) (by decide +kernel) hsteps
  have halone : sys.Alone true := by
    intro i hi
    obtain ⟨r, hr⟩ := hanswered i (by simpa using hi)
    rw [hr]
    rfl
  obtain ⟨later, hlater⟩ := Txn.run_alone _ halone (hwaiting true (by decide))
  have hinput : (Triage.submission 5 (Triage.body 20 (.bool true))).input =
      (Triage.body 20 (.bool true)).toDecisionInput (some "key") := rfl
  obtain ⟨row, -, -, htold⟩ := replayed_iff_same Triage.reachable_started hrun (.inl rfl) hinput
    haround (fun hsame => hbefore (hsame ▸ hafter)) (.inl rfl) hinput rfl (by decide +kernel)
    (hwaiting true (by decide)) hlater
  obtain ⟨-, hreplayed, -, -⟩ := htold _ (Txn.System.put_self ..)
  rw [hstore] at hreplayed
  refine ⟨row, hreplayed.mpr ⟨⟨rfl, rfl, rfl, rfl, ?_⟩, by decide +kernel⟩⟩
  exact .cons ⟨rfl, rfl, Json.same_iff.mpr rfl⟩ .nil

/-- The evidence of the second request has a member that the database cannot store; a later one
of the same name hides it. The value is the one that was recorded, and the request is no
replay. -/
theorem hidden_member_refused : ¬ ∀ (s : Store) (a b : Attempt)
    (request other : SubmitDecisionRequest) (key : String) (d : DecisionResult), Reachable s →
    a.input = request.toDecisionInput (some key) → b.input = other.toDecisionInput (some key) →
    b.investigationID = a.investigationID →
    InvestigationService.validateDecision b.input = .ok () →
    (a.call.run.run s).1 = .ok d → request.Same other →
    ∃ d', (b.call.run.run (a.call.run.run s).2).1 = .ok d' ∧ d'.replayed = true := by
  intro hclaim
  have haccepted : ((Triage.submission 5 (Triage.body 20
      (.obj [(.ofString "x", .bool true)]))).call.run.run Triage.started).1 =
      .ok ⟨⟨4, 3, 2, .inProgress, 11, 10, none, none⟩, ⟨5, 4, 2, 1, 10, 20, ⟨.human, none⟩, none,
        [⟨"log", "seen", some (.obj [("k", .obj [("x", .bool true)])])⟩], some "key", 11⟩,
        false⟩ := by
    decide +kernel
  have hrefused : ((Triage.submission 6 (Triage.body 20 (.obj [(.ofString "x",
      .str (.ofString "\x00")), (.ofString "x", .bool true)]))).call.run.run
      ((Triage.submission 5 (Triage.body 20
        (.obj [(.ofString "x", .bool true)]))).call.run.run Triage.started).2).1 =
      .error .internal := by
    decide +kernel
  have hsame : (Triage.body 20 (.obj [(.ofString "x", .bool true)])).Same (Triage.body 20
      (.obj [(.ofString "x", .str (.ofString "\x00")), (.ofString "x", .bool true)])) := by
    refine ⟨rfl, rfl, rfl, rfl, .cons ⟨rfl, rfl, Json.same_iff.mpr ?_⟩ .nil⟩
    decide +kernel
  obtain ⟨d', hd', -⟩ := hclaim _ (Triage.submission 5 (Triage.body 20
    (.obj [(.ofString "x", .bool true)]))) (Triage.submission 6 (Triage.body 20
    (.obj [(.ofString "x", .str (.ofString "\x00")), (.ofString "x", .bool true)]))) _ _ _ _
    Triage.reachable_started rfl rfl rfl (by decide +kernel) haccepted hsame
  rw [hrefused] at hd'
  cases hd'

end Interbellum
