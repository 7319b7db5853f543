import Interbellum.Invariant.Failures
import Interbellum.Server.Operations

/-!
# What clients are told of failures

No client is told of a constraint that cannot be violated, whichever operation it performs and
whatever the others do.

* `Operation.expected`: for each operation.
* `expected_replies`: in every run.
-/

namespace Interbellum

open PlaybookRepository InvestigationRepository

/-! ## Checks of the services -/

/-- An error of a check of what a client has sent. -/
structure CheckFailed (e : AppError) : Prop where
  code : e.code = .validationFailed
  format : e.format ∉ unexpectedFormats

theorem CheckFailed.expected {e : AppError} (h : CheckFailed e) : Expected e :=
  expected_of_format h.format

theorem checkFailed_validation {format : String} (h : format ∉ unexpectedFormats)
    (args : List Arg) : CheckFailed (.validation format args) := ⟨rfl, h⟩

theorem validateAll_error {α : Type} {id : α → UUID} {E : AppError → Prop}
    {check : List UUID → Nat → α → Except AppError Unit}
    (hcheck : ∀ seen i a e, check seen i a = .error e → E e) {seen : List UUID} {i : Nat}
    {items : List α} {e : AppError}
    (h : PlaybookService.validateAll id check seen i items = .error e) : E e := by
  induction items generalizing seen i with
  | nil => cases h
  | cons a rest ih =>
    rw [PlaybookService.validateAll] at h
    cases ha : check seen i a with
    | error e' =>
      obtain rfl : e' = e := by simpa [ha, bind, Except.bind] using h
      exact hcheck _ _ _ _ ha
    | ok => exact ih (by simpa [ha, bind, Except.bind] using h)

theorem validateNode_error {seen : List UUID} {i : Nat} {n : Node} {e : AppError}
    (h : PlaybookService.validateNode seen i n = .error e) : CheckFailed e := by
  unfold PlaybookService.validateNode at h
  cases hk : n.kind <;> rw [hk] at h <;> dsimp only at h <;> split_ifs at h <;>
    (obtain rfl := Except.error.inj h; exact checkFailed_validation (by decide) _)

theorem validateEdge_error {seen : List UUID} {i : Nat} {edge : Edge} {e : AppError}
    (h : PlaybookService.validateEdge seen i edge = .error e) : CheckFailed e := by
  unfold PlaybookService.validateEdge at h
  split_ifs at h <;> (obtain rfl := Except.error.inj h; exact checkFailed_validation (by decide) _)

/-- What fails a check of the service is reported as invalid. -/
theorem validateGraphInput_error {g : Graph} {e : AppError}
    (h : PlaybookService.validateGraphInput g = .error e) : CheckFailed e := by
  rw [PlaybookService.validateGraphInput] at h
  cases hnodes : PlaybookService.validateAll Node.id PlaybookService.validateNode [] 0 g.nodes with
  | error e' =>
    obtain rfl : e' = e := by simpa [hnodes, bind, Except.bind] using h
    exact validateAll_error (fun _ _ _ _ => validateNode_error) hnodes
  | ok =>
    exact validateAll_error (fun _ _ _ _ => validateEdge_error)
      (by simpa [hnodes, bind, Except.bind] using h)

theorem validateNew_error {input : NewPlaybook} {e : AppError}
    (h : PlaybookService.validateNew input = .error e) : CheckFailed e := by
  unfold PlaybookService.validateNew at h
  split_ifs at h
  · obtain rfl := Except.error.inj h
    exact checkFailed_validation (by decide) _
  · obtain rfl := Except.error.inj h
    exact checkFailed_validation (by decide) _
  · exact validateGraphInput_error h

theorem validateEvidence_error {i : Nat} {items : List EvidenceItem} {e : AppError}
    (h : validateEvidenceFrom i items = .error e) : CheckFailed e := by
  induction items generalizing i with
  | nil => cases h
  | cons item rest ih =>
    rw [validateEvidenceFrom] at h
    cases hitem : item.validate with
    | ok => exact ih (by simpa [hitem] using h)
    | error err =>
      simp only [hitem] at h
      obtain rfl := Except.error.inj h
      unfold EvidenceItem.validate at hitem
      split_ifs at hitem
      · obtain rfl := Except.error.inj hitem
        exact checkFailed_validation (by decide :
          "evidence[%d]: " ++ "evidence item is missing required field \"type\"" ∉
            unexpectedFormats) _
      · obtain rfl := Except.error.inj hitem
        exact checkFailed_validation (by decide :
          "evidence[%d]: " ++ "evidence item %q is missing required field \"summary\"" ∉
            unexpectedFormats) _

theorem validateDecision_error {input : DecisionInput} {e : AppError}
    (h : InvestigationService.validateDecision input = .error e) : CheckFailed e := by
  unfold InvestigationService.validateDecision at h
  split_ifs at h
  · obtain rfl := Except.error.inj h
    exact checkFailed_validation (by decide) _
  · obtain rfl := Except.error.inj h
    exact checkFailed_validation (by decide) _
  · exact validateEvidence_error h

/-! ## Operations -/

variable {s : Store} {a : Attempt}

theorem Rejects.expected {e : Err} (h : Rejects s a e) : e.Expected := by
  cases h with
  | taken => exact (by decide : Expected (.new .conflict "conflicting record already exists" []))
  | _ => exact expected_of_code nofun nofun

section

variable {β : Type} {G : Store → Store → Prop} {Q : Except AppError Reply → Store → Prop}
  {f : β → Reply} {body : Db β}

/-- Except for what others have committed before it, a transaction runs as if it were alone. -/
theorem expected_inTx (h : (reply f (inTx body)).Keeps rules G Q s)
    (hbody : ∀ t, Valid t → ∀ e ws, body.run.run t [] = (.error e, ws) → e.Expected) :
    (reply f (inTx body)).Keeps rules G (Yields Expected fun _ _ => True) s := by
  refine h.of_run (P := fun r => Yields Expected (fun _ _ => True) r s) (single_inTx f body) ?_
    |>.mono (fun _ _ hG => hG) ?_
  · intro t ht _
    rw [run_reply, run_inTx]
    rcases hrun : body.run.run t [] with ⟨e | b, ws⟩
    · exact hbody t ht e ws hrun
    · trivial
  · rintro (e | r) _ h
    · exact h
    · trivial

theorem expected_checked {check : Except AppError Unit}
    (h : (reply f (PlaybookService.checked check (inTx body))).Keeps rules G Q s)
    (hcheck : ∀ e, check = .error e → CheckFailed e)
    (hbody : ∀ t, Valid t → ∀ e ws, body.run.run t [] = (.error e, ws) → e.Expected) :
    (reply f (PlaybookService.checked check (inTx body))).Keeps rules G
      (Yields Expected fun _ _ => True) s := by
  cases check with
  | error e => exact fun _ _ _ => (hcheck e rfl).expected
  | ok => exact expected_inTx h hbody

theorem expected_reply {E : AppError → Prop} {P : β → Store → Prop} {x : Svc β}
    (h : x.run.Keeps rules G (Yields E P) s) (hE : ∀ e, E e → Expected e) :
    (reply f x).Keeps rules G (Yields Expected fun _ _ => True) s := by
  refine keeps_reply h ?_
  rintro (e | b) u hr
  · exact hE e hr
  · trivial

theorem expected_viewed {id : UUID} {x : Svc β}
    {view : Store → Investigation → Version → Alert → Node → List Step → β}
    (h : x.run.Keeps rules G (Viewed s id view) s) :
    (reply f x).Keeps rules G (Yields Expected fun _ _ => True) s := by
  refine keeps_reply h ?_
  rintro _ u ⟨-, -, -, -, ⟨-, rfl⟩ | ⟨-, -, -, -, -, -, -, rfl⟩⟩
  · exact expected_of_code nofun nofun
  · trivial

end

theorem expected_attempt (s : Store) (a : Attempt) :
    a.call.run.Keeps rules (Footprint none a.Records) (Yields Expected fun _ _ => True) s :=
  keeps_attempt (fun _ _ _ _ _ h => h.footprint) (fun _ _ _ _ _ _ _ _ _ => trivial)
    fun _ _ _ _ hrejects _ _ _ => hrejects.expected

/-- No operation is answered one of the other errors. -/
theorem Operation.expected (op : Operation) (hs : Valid s) : op.call.Keeps rules
    (Footprint op.replaces op.Records) (Yields Expected fun _ _ => True) s := by
  have hG : ∀ t, Footprint none (fun _ => False) t t := Footprint.refl _ _
  have hnotFound : ∀ e, NotFound e → Expected e := fun e he => he.refused.expected
  have hkeeps := op.keeps hs
  cases op with
  | createPlaybook p v now input =>
    exact expected_inTx hkeeps fun t ht _ _ => createBody_error ht.toDesign
  | submitPlaybook p v now input =>
    exact expected_checked hkeeps (fun _ => validateNew_error)
      fun t ht _ _ => createBody_error ht.toDesign
  | createVersion p cloneFrom v fresh now =>
    exact expected_inTx hkeeps fun t ht _ _ => createVersionBody_error ht.toDesign
  | replaceGraph v g => exact expected_inTx hkeeps fun t ht _ _ => replaceGraphBody_error ht
  | submitGraph v g =>
    exact expected_checked hkeeps (fun _ => validateGraphInput_error)
      fun t ht _ _ => replaceGraphBody_error ht
  | publish v now => exact expected_inTx hkeeps fun _ _ _ _ => publishBody_error
  | getPlaybook id => exact expected_reply (keeps_getPlaybook hs hG id) hnotFound
  | getVersion v => exact expected_reply (keeps_getVersion hs hG v) hnotFound
  | createAlert id now input =>
    exact expected_reply (createAlert_keeps hs id now input) fun _ he => he
  | start id now alertID v =>
    exact expected_reply (start_keeps hs id now alertID v) fun _ he => he.expected
  | decide a => exact expected_reply (expected_attempt s a) fun _ he => he
  | submit a =>
    refine expected_reply (E := Expected) (P := fun _ _ => True) ?_ fun _ he => he
    unfold Attempt.submit InvestigationService.submitDecision
    cases hvalid : InvestigationService.validateDecision a.input with
    | error e => exact fun _ _ _ => (validateDecision_error hvalid).expected
    | ok =>
      refine keeps_bind_yields hs (expected_attempt s a) fun d t ht _ _ => ?_
      refine (get_keeps ht (Footprint.refl _ _) a.investigationID).mono (fun _ _ hG => hG) ?_
      rintro _ u ⟨-, -, -, -, ⟨-, rfl⟩ | ⟨-, -, -, -, -, -, -, rfl⟩⟩
      · exact expected_of_code nofun nofun
      · trivial
  | getInvestigation id => exact expected_viewed (get_keeps hs hG id)
  | report id => exact expected_viewed (report_keeps hs hG id)

section

variable {ι : Type} [DecidableEq ι] {ops : ι → Operation} {trace : List (ι × Txn.Event)}
  {sys : Server ι} {k : ι}

/-- What is shown of an operation holds of what its session replies. -/
theorem replies_of (h : Reachable s) (hrun : Txn.Run (clients s ops) trace sys)
    {G : Store → Store → Prop} {Q : Except AppError Reply → Store → Prop}
    (hkeeps : (ops k).call.Keeps rules G Q s) {r : Except AppError Reply}
    (hreply : (sys.session k).Replies r) : Q r sys.store := by
  obtain ⟨⟨calls, hlinked⟩, -⟩ := ((tracked_clients h.valid ops).retarget hkeeps).run hrun
  have hQ := hlinked.replies hreply
  rwa [Function.update_self] at hQ

theorem expected_replies (h : Reachable s) (hrun : Txn.Run (clients s ops) trace sys)
    {e : AppError} (hreply : (sys.session k).Replies (.error e)) : Expected e :=
  replies_of h hrun ((ops k).expected h.valid) hreply

end

end Interbellum
