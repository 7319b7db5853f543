import Interbellum.Guarantees.Views

/-!
# Retries

A client that does not hear from a decision sends it again, under the same key. Whatever
became of the first call, and whatever others did since, the step is recorded once.

* `keeps_retry`: a call under a recorded key changes nothing, and answers for that key.
* `decision_step`: what a session does when it records a step.
* `retries`: keys are used once, by calls that append a step, and retries are recognised.
-/

namespace Interbellum

open InvestigationRepository

variable {s t : Store} {a : Attempt} {row : StepRow}

theorem Attempt.Recorded.evolves (h : a.Recorded s row) (he : Evolves s t) :
    a.Recorded t row := by
  obtain ⟨key, hkey, hrow, hrowkey⟩ := h
  exact ⟨key, hkey, (he.steps _).subset hrow, hrowkey⟩

theorem Attempt.Recorded.not_unused (h : a.Recorded s row) : ¬ a.KeyUnused s := by
  obtain ⟨key, hkey, hrow, hrowkey⟩ := h
  exact fun hunused => hunused key hkey row hrow hrowkey

theorem Valid.keys_nodup (hs : Valid s) (id : UUID) :
    ((s.stepsOf id).filterMap StepRow.idempotencyKey).Nodup := by
  cases hsteps : s.stepsOf id with
  | nil => exact List.nodup_nil
  | cons r rest =>
    obtain ⟨i, hi, rfl⟩ := hs.owner (hsteps ▸ List.mem_cons_self)
    rw [← hsteps]
    exact (hs.consistent i hi).keys

/-- A key is recorded with one step. -/
theorem Attempt.Recorded.unique (hs : Valid s) {r r' : StepRow} (h : a.Recorded s r)
    (h' : a.Recorded s r') : r = r' := by
  obtain ⟨key, hkey, hr, hrkey⟩ := h
  obtain ⟨key', hkey', hr', hrkey'⟩ := h'
  obtain rfl : key = key' := Option.some.inj (hkey.symm.trans hkey')
  exact eq_of_nodup_filterMap (hs.keys_nodup a.investigationID) hr hr' hrkey hrkey'

/-- What a call under the key of the recorded step `row` answers. -/
structure Retried (row : StepRow) (a : Attempt) (r : Except AppError DecisionResult) : Prop where
  replayed : storableInput a.input = true → equivalent row a.input = true →
    ∃ d, r = .ok d ∧ d.replayed = true ∧ scanStep row = .ok d.step
  reused : storableInput a.input = true → equivalent row a.input = false →
    ∃ e : AppError, r = .error e ∧ e.code = .idempotencyKeyReused
  unstorable : storableInput a.input = false → r = .error .internal

/-- What such a call is meant to be answered: the recorded step, or that the key is taken. -/
def RetryRecognised (row : StepRow) (a : Attempt) (r : Except AppError DecisionResult) : Prop :=
  (equivalent row a.input = true →
    ∃ d, r = .ok d ∧ d.replayed = true ∧ scanStep row = .ok d.step) ∧
  (equivalent row a.input = false →
    ∃ e : AppError, r = .error e ∧ e.code = .idempotencyKeyReused)

theorem Retried.recognised_iff {r : Except AppError DecisionResult} (h : Retried row a r) :
    RetryRecognised row a r ↔ storableInput a.input = true := by
  refine ⟨?_, fun hstorable => ⟨h.replayed hstorable, h.reused hstorable⟩⟩
  rintro ⟨hreplayed, hreused⟩
  by_contra hne
  have hr : r = .error .internal := h.unstorable (by simpa using hne)
  cases hequivalent : equivalent row a.input with
  | true =>
    obtain ⟨d, hd, -⟩ := hreplayed hequivalent
    rw [hr] at hd
    cases hd
  | false =>
    obtain ⟨e, he, hcode⟩ := hreused hequivalent
    rw [hr] at he
    cases he
    cases hcode

theorem keeps_retry (h : a.Recorded s row) :
    a.call.run.Keeps rules (fun t u => u = t) (fun r _ => Retried row a r) s := by
  have hused : ∀ {t}, Evolves s t → ¬ a.KeyUnused t := fun he => (h.evolves he).not_unused
  refine keeps_attempt ?_ ?_ ?_
  · intro t d ws ht hst haccepts
    cases haccepts with
    | replay => rfl
    | @advance i _ _ _ hid hadvances _ _ =>
      refine absurd ?_ (hused hst)
      intro key hkey
      rw [← hid]
      exact hadvances.key key hkey
  · intro t d ws ht hst haccepts u _ _
    cases haccepts with
    | @replay i r step _ _ hrecorded hstorable hequivalent hscan =>
      obtain rfl := hrecorded.unique ht (h.evolves hst)
      refine ⟨fun _ _ => ⟨_, rfl, rfl, hscan⟩, ?_, ?_⟩
      · intro _ hne
        rw [hequivalent] at hne
        cases hne
      · intro hne
        rw [hstorable] at hne
        cases hne
    | @advance i _ _ _ hid hadvances _ _ =>
      refine absurd ?_ (hused hst)
      intro key hkey
      rw [← hid]
      exact hadvances.key key hkey
  · intro t e ht hst hrejects u _ _
    cases hrejects with
    | missing hmissing =>
      obtain ⟨key, -, hrow, -⟩ := h.evolves hst
      obtain ⟨i, hi, hid⟩ := ht.owner hrow
      exact absurd hid (hmissing i hi)
    | reused _ hrecorded hstorable hequivalent =>
      obtain rfl := hrecorded.unique ht (h.evolves hst)
      refine ⟨?_, fun _ _ => ⟨_, rfl, rfl⟩, ?_⟩
      · intro _ he
        rw [hequivalent] at he
        cases he
      · intro hne
        rw [hstorable] at hne
        cases hne
    | unstorable hcause =>
      rcases hcause with hinput | ⟨hunused, -⟩
      · refine ⟨?_, ?_, fun _ => rfl⟩
        · intro hstorable
          rw [hinput] at hstorable
          cases hstorable
        · intro hstorable
          rw [hinput] at hstorable
          cases hstorable
      · exact absurd hunused (hused hst)
    | completed _ _ hunused _ => exact absurd hunused (hused hst)
    | unknown _ _ hunused _ _ => exact absurd hunused (hused hst)
    | elsewhere _ _ hunused _ _ _ _ => exact absurd hunused (hused hst)
    | taken hunused _ _ => exact absurd hunused (hused hst)

/-! ## Recording -/

/-- What is left of a decision or a submission after it has decided changes nothing. -/
theorem act_decision {op : Operation} (hop : op = .decide a ∨ op = .submit a) {c : Client}
    {s' : Store} (hact : op.call.act s = some (c, s')) (hs' : Valid s') :
    ∃ r, a.call.run.run s = (r, s') ∧
      c.Keeps rules (fun t u => u = t) (fun r' _ => op = .decide a → r' = r.map .decision) s' := by
  rcases hop with rfl | rfl
  · obtain ⟨rfl, rfl⟩ := act_decide hact
    exact ⟨_, rfl, fun _ _ _ _ => rfl⟩
  · obtain ⟨r, hr, rfl⟩ := act_submit hact
    refine ⟨r, hr, ?_⟩
    cases r with
    | error e => exact fun _ _ _ hop => nomatch hop
    | ok d =>
      refine keeps_reply (get_keeps (G := fun t u => u = t) hs' (fun _ => rfl) _) ?_
      exact fun _ _ _ hop => nomatch hop

/-- Neither begins with a statement of its own. -/
theorem decision_call {op : Operation} (hop : op = .decide a ∨ op = .submit a)
    {effect : Store → Txn.Effect Write LockKey} {next : Store → Client} :
    op.call ≠ .auto effect next := by
  rcases hop with rfl | rfl
  · intro hcall
    have hcall : Txn.Call.tx a.body.run _ = .auto effect next := hcall
    cases hcall
  · rw [submit_call]
    cases InvestigationService.validateDecision a.input <;> exact fun hcall => nomatch hcall

variable {ι : Type} [DecidableEq ι] {ops : ι → Operation} {trace : List (ι × Txn.Event)}
  {sys : Server ι} {k : ι} {event : Txn.Event}

/-- A decision or a submission changes the store once, by the commit in which it decides. -/
theorem decision_step {before after : Server ι} (h : Reachable s)
    (hop : ops k = .decide a ∨ ops k = .submit a) (hrun : Txn.Run (clients s ops) trace before)
    (hstep : Txn.Step k event before after)
    (hchanged : after.store ≠ before.store) :
    event = .commit ∧ (∃ i next e step, Advances before.store i (a.row before.store i e) next ∧
      scanStep (a.row before.store i e) = .ok step ∧ i.id = a.investigationID ∧
      e.id = a.input.edgeID ∧ a.call.run.run before.store = (.ok ⟨next, step, false⟩, after.store) ∧
      after.store = before.store.advanced (a.row before.store i e) next) ∧
    ∃ calls, Tracked s ops after calls ∧ (calls k).Keeps rules (fun t u => u = t)
      (fun r _ => ops k = .decide a → ∃ d, r = .ok (.decision d)) after.store := by
  obtain ⟨calls, htracked, hmoved⟩ := (tracked_clients h.valid ops).acts hrun k
  rcases hmoved with hstays | ⟨event', before', after', calls₂, haround, hact, htracked₂⟩
  · obtain ⟨calls', htracked', -, hmoves⟩ := htracked.step hstep
    rcases hmoves with ⟨hsame, -⟩ | ⟨c, hact, rfl, -⟩
    · exact absurd hsame hchanged
    rw [hstays] at hact
    obtain ⟨r, hr, hkeeps⟩ := act_decision hop hact htracked'.inv
    rcases a.run_cases htracked.inv with ⟨d, ws, haccepts, hdecided⟩ | ⟨e, -, hdecided⟩
    · rw [hdecided] at hr
      obtain ⟨rfl, hstore⟩ := Prod.mk.inj hr
      cases haccepts with
      | replay => exact absurd hstore.symm hchanged
      | @advance i next e step hid hadvances hedge hscan =>
        refine ⟨?_, ⟨i, next, e, step, hadvances, hscan, hid, hedge, ?_, hstore.symm⟩, _, htracked',
          ?_⟩
        · rcases hstep.of_changed hchanged with hcommit | ⟨effect, next, hauto⟩
          · exact hcommit
          · have hcall := htracked.call_of_idle hauto
            rw [hstays] at hcall
            exact absurd hcall (decision_call hop)
        · rw [hdecided, hstore]
        · rw [Function.update_self]
          exact hkeeps.mono (fun _ _ hG => hG) fun r' _ hr' hop => ⟨_, hr' hop⟩
    · rw [hdecided] at hr
      exact absurd (Prod.mk.inj hr).2.symm hchanged
  · -- it has decided before
    obtain ⟨t, t', rfl, -, -, hafter⟩ := haround
    obtain ⟨r, -, hkeeps⟩ := act_decision hop hact htracked₂.inv
    exact absurd (htracked₂.silent hkeeps hafter hstep) hchanged

/-- Only decisions and submissions record steps. -/
theorem recording_step {before after : Server ι} (h : Reachable s)
    (hrun : Txn.Run (clients s ops) trace before) (hstep : Txn.Step k event before after)
    (hsteps : after.store.steps ≠ before.store.steps) :
    ∃ a, ops k = .decide a ∨ ops k = .submit a := by
  obtain ⟨calls, htracked⟩ := h.tracked hrun
  obtain ⟨calls', -, -, hmoves⟩ := htracked.step hstep
  rcases hmoves with ⟨hsame, -⟩ | ⟨c, -, -, hsame | hfootprint⟩
  · exact absurd (congrArg Store.steps hsame) hsteps
  · exact absurd (congrArg Store.steps hsame) hsteps
  · rcases hfootprint.steps with hsame | ⟨row, hrecords, -⟩
    · exact absurd hsame hsteps
    · cases hop : ops k <;> rw [hop] at hrecords
      case decide a => exact ⟨a, .inl rfl⟩
      case submit a => exact ⟨a, .inr rfl⟩
      all_goals exact absurd hrecords id

/-- A call that answers an error has changed nothing. -/
theorem failed_decision {before after : Server ι} (h : Reachable s)
    (hrun : Txn.Run (clients s ops) trace sys) (hop : ops k = .decide a) {e : AppError}
    (hanswer : sys.session k = .idle (.ret (.error e)))
    (haround : Txn.Around k event (clients s ops) trace sys before after) :
    after.store = before.store := by
  obtain ⟨t, t', rfl, hbefore, hstep, hafter⟩ := haround
  by_contra hchanged
  obtain ⟨-, -, calls, htracked, hkeeps⟩ := decision_step h (.inl hop) hbefore hstep hchanged
  obtain ⟨⟨calls', hlinked⟩, -⟩ := (htracked.retarget hkeeps).run hafter
  have hr := hlinked.answer hanswer
  rw [Function.update_self] at hr
  obtain ⟨d, hd⟩ := hr hop
  cases hd

/-- Exactly-once retries: a key is recorded once; a later call under a recorded key changes
nothing and is answered as a replay, or as a misuse of the key when the request differs, if and
only if the database can store the request; and a step is recorded by the commit of a call that
answers this step, never by a call that was rejected, rolled back or cut off. -/
theorem retries (h : Reachable s) (hrun : Txn.Run (clients s ops) trace sys) :
    (∀ id, ((sys.store.stepsOf id).filterMap StepRow.idempotencyKey).Nodup) ∧
    (∀ k a row, ops k = .decide a → sys.session k = .idle (ops k).call →
      a.Recorded sys.store row → ∀ later sys', Txn.Run sys later sys' →
        (∀ event before after, Txn.Around k event sys later sys' before after →
          after.store = before.store) ∧
        ∀ r, sys'.session k = .idle (.ret r) → ∃ r', r = r'.map .decision ∧ Retried row a r' ∧
          (RetryRecognised row a r' ↔ storableInput a.input = true)) ∧
    (∀ k event before after, Txn.Around k event (clients s ops) trace sys before after →
      after.store.steps ≠ before.store.steps → event = .commit ∧ ∃ a row d,
        (ops k = .decide a ∨ ops k = .submit a) ∧ row.investigationID = a.investigationID ∧
        row.idempotencyKey = a.input.idempotencyKey ∧
        after.store.steps = before.store.steps ++ [row] ∧ scanStep row = .ok d.step ∧
        d.replayed = false ∧ a.call.run.run before.store = (.ok d, after.store)) ∧
    ∀ k a e, ops k = .decide a → sys.session k = .idle (.ret (.error e)) →
      ∀ event before after, Txn.Around k event (clients s ops) trace sys before after →
        after.store = before.store := by
  obtain ⟨calls, htracked⟩ := h.tracked hrun
  have hs : Valid sys.store := htracked.inv
  refine ⟨hs.keys_nodup, ?_, ?_, ?_⟩
  · intro k a row hop hsent hrecorded later sys' hlater
    have hcall := htracked.call_of_idle hsent
    rw [hop] at hcall
    have hkeeps : (calls k).Keeps rules (fun t u => u = t)
        (fun r _ => ∃ r', r = r'.map .decision ∧ Retried row a r') sys.store := by
      rw [hcall]
      exact keeps_reply (keeps_retry hrecorded) fun r _ hr => ⟨r, rfl, hr⟩
    constructor
    · rintro event before after ⟨t, t', rfl, hbefore, hstep, -⟩
      exact htracked.silent hkeeps hbefore hstep
    · intro r hanswer
      obtain ⟨⟨calls', hlinked⟩, -⟩ := (htracked.retarget hkeeps).run hlater
      have hr := hlinked.answer hanswer
      rw [Function.update_self] at hr
      obtain ⟨r', hr', hretried⟩ := hr
      exact ⟨r', hr', hretried, hretried.recognised_iff⟩
  · rintro k event before after ⟨t, t', rfl, hbefore, hstep, -⟩ hsteps
    obtain ⟨a, hop⟩ := recording_step h hbefore hstep hsteps
    have hchanged : after.store ≠ before.store := fun hsame => hsteps (congrArg Store.steps hsame)
    obtain ⟨hevent, ⟨i, next, e, step, hadvances, hscan, hid, -, hrun', hafter⟩, -⟩ :=
      decision_step h hop hbefore hstep hchanged
    refine ⟨hevent, a, a.row before.store i e, _, hop, hid, rfl, ?_, hscan, rfl, hrun'⟩
    rw [hafter]
    rfl
  · exact fun k a e hop hanswer event before after haround =>
      failed_decision h hrun hop hanswer haround

/-- A retry after a lost answer is recognised. -/
theorem retries_triage : ∃ d, ((Operation.decide (Triage.attempt 6 20 (some "k"))).call.run
    (after [.decide (Triage.attempt 5 20 (some "k"))] Triage.started)).1 = .ok (.decision d) ∧
      d.replayed = true := by
  obtain ⟨trace, hrun⟩ := run_operation
    (after [.decide (Triage.attempt 5 20 (some "k"))] Triage.started)
    (.decide (Triage.attempt 6 20 (some "k")))
  have hrow : ⟨5, 4, 2, 1, 10, 20, ⟨.human, none⟩, none, none, some "k", 11⟩ ∈
      (after [.decide (Triage.attempt 5 20 (some "k"))] Triage.started).stepsOf 4 := by
    decide +kernel
  obtain ⟨-, hretry, -⟩ := retries (Triage.reachable_started.after
    [.decide (Triage.attempt 5 20 (some "k"))]) (.nil (clients _ fun _ : Unit => _))
  obtain ⟨-, hanswer⟩ := hretry () (Triage.attempt 6 20 (some "k")) _ rfl rfl
    ⟨"k", rfl, hrow, rfl⟩ _ _ hrun
  obtain ⟨r, hr, hretried, -⟩ := hanswer _ (Txn.System.put_self ..)
  obtain ⟨d, rfl, hreplayed, -⟩ := hretried.replayed rfl rfl
  exact ⟨d, hr, hreplayed⟩

/-- A request whose rationale has a character that the database cannot store is not told that
its key is taken: the comparison with the recorded request fails already. -/
theorem unstorable_retry : ¬ ∀ (s : Store) (a : Attempt) (row : StepRow),
    Reachable s → a.Recorded s row → equivalent row a.input = false →
    ∃ e : AppError, (a.call.run.run s).1 = .error e ∧
      e.code = .idempotencyKeyReused := by
  intro hclaim
  have hrow : ⟨5, 4, 2, 1, 10, 20, ⟨.human, none⟩, none, none, some "k", 11⟩ ∈
      (after [.decide (Triage.attempt 5 20 (some "k"))] Triage.started).stepsOf 4 := by
    decide +kernel
  have hcall : ((Attempt.call ⟨6, 12, 12, 4, 20, ⟨.human, none⟩, some "\x00", [], some "k"⟩).run.run
      (after [.decide (Triage.attempt 5 20 (some "k"))] Triage.started)).1 = .error .internal := by
    decide +kernel
  obtain ⟨e, he, hcode⟩ := hclaim _ ⟨6, 12, 12, 4, 20, ⟨.human, none⟩, some "\x00", [], some "k"⟩ _
    (Triage.reachable_started.after _) ⟨"k", rfl, hrow, rfl⟩ rfl
  rw [hcall] at he
  cases he
  cases hcode

end Interbellum
