import Interbellum.Guarantees.Retries

/-!
# The times of the steps

The number of a step follows the order in which transactions lock the investigation; its time is
the one at which its transaction began. A transaction that began first may have to wait for the
lock while a later one records its step.

* `RecordedBy.createdAt`: a step has the time of the transaction that recorded it.
* `created_in_begin_order`: times follow the order in which transactions began.
* `clock_overtaken`: they need not follow the order of the steps.
-/

namespace Interbellum

variable {s : Store} {ι : Type} [DecidableEq ι] {ops : ι → Operation}
  {trace : List (ι × Txn.Event)} {sys : Server ι} {k : ι} {a : Attempt} {r : StepRow}

/-- Client `j` begins its transaction before client `k` does. -/
def BeginsBefore (trace : List (ι × Txn.Event)) (j k : ι) : Prop :=
  trace.idxOf (j, .begin) < trace.idxOf (k, .begin)

/-- The clock of the database never goes backwards: of two decisions the one that begins later is
given no earlier time. -/
def ClockForward (ops : ι → Operation) (trace : List (ι × Txn.Event)) : Prop :=
  ∀ j k a b, (ops j = .decide a ∨ ops j = .submit a) → (ops k = .decide b ∨ ops k = .submit b) →
    (k, .begin) ∈ trace → BeginsBefore trace j k → a.txNow ≤ b.txNow

/-- Client `k` has recorded the step `r`. -/
def RecordedBy (s : Store) (ops : ι → Operation) (trace : List (ι × Txn.Event)) (sys : Server ι)
    (k : ι) (r : StepRow) : Prop :=
  ∃ event before after, Txn.Around k event (clients s ops) trace sys before after ∧
    after.store.steps = before.store.steps ++ [r]

/-- A client that is to decide has begun, or has not moved, or has died. -/
theorem begun_or_idle (hop : ops k = .decide a ∨ ops k = .submit a)
    (hrun : Txn.Run (clients s ops) trace sys) :
    (k, .begin) ∈ trace ∨ sys.session k = .idle (ops k).call ∨ sys.session k = .dead := by
  induction hrun with
  | nil => exact .inr (.inl rfl)
  | @snoc mid sys' trace i event hrun hstep ih =>
    rcases ih with hbegun | hquiet
    · exact .inl (List.mem_append_left _ hbegun)
    · by_cases hik : i = k
      · subst hik
        rcases hquiet with hidle | hdead
        · cases hstep with
          | begin | beginSnapshot => exact .inl (by simp)
          | auto h => exact absurd (Txn.Session.idle.inj (hidle.symm.trans h)) (decision_call hop)
          | crash => exact .inr (.inr (Txn.System.set_self ..))
          | statement h | commit h | rollback h | read h | finish h =>
            exact nomatch hidle.symm.trans h
        · rw [hstep.of_done (.inr hdead)]
          exact .inr (.inr (Txn.System.set_self ..))
      · rw [hstep.session_of_ne (Ne.symm hik)]
        exact .inr hquiet

/-- A step has the time of the transaction that recorded it, which has begun before. -/
theorem RecordedBy.createdAt (h : Reachable s) (hr : RecordedBy s ops trace sys k r) :
    (k, .begin) ∈ trace ∧
      ∃ a, (ops k = .decide a ∨ ops k = .submit a) ∧ r.createdAt = a.txNow := by
  obtain ⟨event, before, after, ⟨t, t', rfl, hbefore, hstep, -⟩, hsteps⟩ := hr
  have hnew : after.store.steps ≠ before.store.steps := by
    rw [hsteps]
    exact fun hsame => List.cons_ne_nil _ _ (List.append_right_eq_self.mp hsame)
  obtain ⟨a, hop⟩ := recording_step h hbefore hstep hnew
  obtain ⟨rfl, ⟨i, next, e, step, -, -, -, -, -, hafter⟩, -⟩ := decision_step h hop hbefore hstep
    fun hsame => hnew (congrArg Store.steps hsame)
  constructor
  · rcases begun_or_idle hop hbefore with hbegun | hidle | hdead
    · exact List.mem_append_left _ hbegun
    · cases hstep with
      | commit h => exact nomatch hidle.symm.trans h
    · cases hstep with
      | commit h => exact nomatch hdead.symm.trans h
  · refine ⟨a, hop, ?_⟩
    have happend : before.store.steps ++ [r] = before.store.steps ++ [a.row before.store i e] := by
      rw [← hsteps, hafter]
      rfl
    rw [List.singleton_inj.mp (List.append_cancel_left happend)]
    rfl

/-- A step that is there was there at the beginning, or a client has recorded it. -/
theorem recorded_by (h : Reachable s) (hrun : Txn.Run (clients s ops) trace sys)
    (hr : r ∈ sys.store.steps) : r ∈ s.steps ∨ ∃ k, RecordedBy s ops trace sys k r := by
  induction hrun with
  | nil => exact .inl hr
  | @snoc mid sys' trace i event hrun hstep ih =>
    have hearlier : r ∈ mid.store.steps →
        r ∈ s.steps ∨ ∃ k, RecordedBy s ops (trace ++ [(i, event)]) sys' k r := by
      intro hmem
      refine (ih hmem).imp_right ?_
      rintro ⟨k, event', before, after, haround, hsteps⟩
      exact ⟨k, event', before, after, haround.snoc hstep, hsteps⟩
    by_cases hsteps : sys'.store.steps = mid.store.steps
    · exact hearlier (hsteps ▸ hr)
    · obtain ⟨a, hop⟩ := recording_step h hrun hstep hsteps
      obtain ⟨-, ⟨j, next, e, step, -, -, -, -, -, hafter⟩, -⟩ := decision_step h hop hrun hstep
        fun hsame => hsteps (congrArg Store.steps hsame)
      have happend : sys'.store.steps = mid.store.steps ++ [a.row mid.store j e] := by
        rw [hafter]
        rfl
      rw [happend, List.mem_append, List.mem_singleton] at hr
      rcases hr with hmem | rfl
      · exact hearlier hmem
      · exact .inr ⟨i, event, mid, sys', ⟨trace, [], rfl, hrun, hstep, .nil _⟩, happend⟩

/-- Of two steps, the one whose transaction began first has no later time. -/
theorem created_of_begins (h : Reachable s) (hclock : ClockForward ops trace) {j : ι}
    {r' : StepRow} (hr : RecordedBy s ops trace sys j r) (hr' : RecordedBy s ops trace sys k r')
    (hbegins : BeginsBefore trace j k) : r.createdAt ≤ r'.createdAt := by
  obtain ⟨-, a, hj, hcreated⟩ := hr.createdAt h
  obtain ⟨hbegun, b, hk, hcreated'⟩ := hr'.createdAt h
  rw [hcreated, hcreated']
  exact hclock j k a b hj hk hbegun hbegins

/-- What was there before a transaction began has been recorded by one that began before. -/
theorem begins_before (h : Reachable s) {t : List (ι × Txn.Event)} {mid : Server ι}
    (t' : List (ι × Txn.Event)) (hrun : Txn.Run (clients s ops) t mid)
    (hr : r ∈ mid.store.steps) (hold : r ∉ s.steps)
    (hk : (k, .begin) ∉ t) : ∃ j, RecordedBy s ops t mid j r ∧ BeginsBefore (t ++ t') j k := by
  obtain ⟨j, hj⟩ := (recorded_by h hrun hr).resolve_left hold
  obtain ⟨hbegun, -⟩ := hj.createdAt h
  refine ⟨j, hj, ?_⟩
  rw [BeginsBefore, List.idxOf_append_of_mem hbegun, List.idxOf_append_of_notMem hk]
  exact lt_of_lt_of_le (List.idxOf_lt_length_of_mem hbegun) (Nat.le_add_right _ _)

/-- Every step has the time of the transaction that recorded it, and these times follow the order
in which the transactions begin: a step whose transaction begins first, or that is there when the
other one begins, has no later time. So a history is in the order of its times when transactions
lock the investigation in the order in which they begin. -/
theorem created_in_begin_order (h : Reachable s) (hrun : Txn.Run (clients s ops) trace sys)
    (hclock : ClockForward ops trace) {id : UUID} (hnew : s.stepsOf id = []) :
    (∀ r ∈ sys.store.stepsOf id, ∃ k a, RecordedBy s ops trace sys k r ∧
      (k, .begin) ∈ trace ∧ (ops k = .decide a ∨ ops k = .submit a) ∧ r.createdAt = a.txNow) ∧
    (∀ j k r r', RecordedBy s ops trace sys j r → RecordedBy s ops trace sys k r' →
      BeginsBefore trace j k → r.createdAt ≤ r'.createdAt) ∧
    (∀ t t' mid k r r', trace = t ++ t' → Txn.Run (clients s ops) t mid → Txn.Run mid t' sys →
      r ∈ mid.store.stepsOf id → (k, .begin) ∉ t → RecordedBy s ops trace sys k r' →
      r.createdAt ≤ r'.createdAt) ∧
    ((∀ j k r r', r ∈ sys.store.stepsOf id → r' ∈ sys.store.stepsOf id →
        r.sequenceNumber < r'.sequenceNumber → RecordedBy s ops trace sys j r →
        RecordedBy s ops trace sys k r' → BeginsBefore trace j k) →
      ∀ r r', r ∈ sys.store.stepsOf id → r' ∈ sys.store.stepsOf id →
        r.sequenceNumber < r'.sequenceNumber → r.createdAt ≤ r'.createdAt) := by
  have hold : ∀ {t : Store} {r : StepRow}, r ∈ t.stepsOf id → r ∉ s.steps := by
    intro t r hr hmem
    have hr' : r ∈ s.stepsOf id := List.mem_filter.mpr ⟨hmem, (List.mem_filter.mp hr).2⟩
    rw [hnew] at hr'
    exact List.not_mem_nil hr'
  have hrecorded : ∀ r ∈ sys.store.stepsOf id, ∃ k, RecordedBy s ops trace sys k r := fun r hr =>
    (recorded_by h hrun (List.mem_filter.mp hr).1).resolve_left (hold hr)
  refine ⟨?_, fun j k r r' hr hr' => created_of_begins h hclock hr hr', ?_, ?_⟩
  · intro r hr
    obtain ⟨k, hk⟩ := hrecorded r hr
    obtain ⟨hbegun, a, hop, hcreated⟩ := hk.createdAt h
    exact ⟨k, a, hk, hbegun, hop, hcreated⟩
  · rintro t t' mid k r r' rfl hmid hlater hr hk hr'
    obtain ⟨j, ⟨event, before, after, ⟨u, u', rfl, hu, hstep, hu'⟩, hsteps⟩, hbegins⟩ :=
      begins_before h t' hmid (List.mem_filter.mp hr).1 (hold hr) hk
    refine created_of_begins h hclock
      ⟨event, before, after, ⟨u, u' ++ t', ?_, hu, hstep, ?_⟩, hsteps⟩ hr' hbegins
    · rw [List.append_assoc, List.cons_append]
    · exact hu'.append hlater
  · intro hturn r r' hr hr' hlt
    obtain ⟨j, hj⟩ := hrecorded r hr
    obtain ⟨k, hk⟩ := hrecorded r' hr'
    exact created_of_begins h hclock hj hk (hturn j k r r' hr hr' hlt hj hk)

/-- A decision that begins at the time `now`. -/
def Triage.timed (stepID : UUID) (now : Time) (edgeID : UUID) : Attempt :=
  ⟨stepID, now, now, 4, ⟨edgeID, ⟨.human, none⟩, none, [], none⟩⟩

/-- The clients of two decisions, of which the first one begins its transaction first. -/
def overtaking (a b : Attempt) : Bool → Operation
  | false => .decide a
  | true => .decide b

/-- Both clients have begun when the first one takes the lock; the other one waits, finds its step
recorded and goes on from there. -/
theorem created_in_begin_order_triage :
    ∃ (trace : List (Bool × Txn.Event)) (sys : Server Bool) (r r' : StepRow),
      Txn.Run (clients Triage.started (overtaking (Triage.timed 5 11 20) (Triage.timed 6 12 22)))
        trace sys ∧
      sys.store.stepsOf 4 = [r, r'] ∧ r.sequenceNumber < r'.sequenceNumber ∧
      RecordedBy Triage.started (overtaking (Triage.timed 5 11 20) (Triage.timed 6 12 22))
        trace sys false r ∧
      RecordedBy Triage.started (overtaking (Triage.timed 5 11 20) (Triage.timed 6 12 22))
        trace sys true r' ∧
      BeginsBefore trace false true ∧ r.createdAt ≤ r'.createdAt := by
  let r : StepRow := ⟨5, 4, 2, 1, 10, 20, ⟨.human, none⟩, none, none, none, 11⟩
  let r' : StepRow := ⟨6, 4, 2, 2, 11, 22, ⟨.human, none⟩, none, none, none, 12⟩
  obtain ⟨trace, sys, hrun, htrace, hsteps⟩ : ∃ trace sys,
      Txn.Run (clients Triage.started (overtaking (Triage.timed 5 11 20) (Triage.timed 6 12 22)))
        trace sys ∧
      BeginsBefore trace false true ∧ sys.store.stepsOf 4 = [r, r'] := by
    refine ⟨_, _, Txn.run_follow ([false, true] ++ List.replicate 10 false ++
      List.replicate 10 true) _, ?_, ?_⟩
    · unfold BeginsBefore
      decide +kernel
    · decide +kernel
  have hclock : ClockForward (overtaking (Triage.timed 5 11 20) (Triage.timed 6 12 22)) trace := by
    rintro j k a b (hj | hj) (hk | hk) - hbegins <;> cases j <;> cases k <;> cases hj <;> cases hk
    · exact le_rfl
    · exact (by decide : 11 ≤ 12)
    · exact absurd hbegins htrace.asymm
    · exact le_rfl
  obtain ⟨hrecorded, hordered, -⟩ := created_in_begin_order Triage.reachable_started hrun hclock
    (by decide +kernel : Triage.started.stepsOf 4 = [])
  obtain ⟨j, a, hj, -, hopj, hcreated⟩ := hrecorded r (by simp [hsteps])
  obtain ⟨k, b, hk, -, hopk, hcreated'⟩ := hrecorded r' (by simp [hsteps])
  obtain rfl : j = false := by
    cases j with
    | false => rfl
    | true =>
      rcases hopj with h | h
      · cases h
        cases hcreated
      · cases h
  obtain rfl : k = true := by
    cases k with
    | false =>
      rcases hopk with h | h
      · cases h
        cases hcreated'
      · cases h
    | true => rfl
  exact ⟨trace, sys, r, r', hrun, hsteps, by decide, hj, hk, htrace, hordered _ _ _ _ hj hk htrace⟩

/-- A decision may run to its end between the beginning and the first statement of another. -/
theorem overtaken_run (s : Store) (a b : Attempt) {t : Store}
    (ht : t = ((Operation.decide b).call.run s).2) {d : DecisionResult}
    (hok : (a.body.run.run t []).1 = .ok d) :
    ∃ trace sys, Txn.Run (clients s (overtaking a b)) ((false, .begin) :: trace) sys ∧
      sys.store = Txn.applyAll (a.body.run.run t []).2 t := by
  have hidle : (clients s (overtaking a b)).session false = .idle (.tx a.body.run
      fun r => .ret ((r.mapError translate).map .decision)) := rfl
  have hother : (clients s (overtaking a b)).session true = .idle (Operation.decide b).call := rfl
  exact Txn.run_between Bool.false_ne_true.symm (fun k => by cases k <;> rfl) hidle hother ht hok

/-- The client that begins first waits for the lock, while one that begins later records a step;
the step after it has an earlier time. -/
theorem clock_overtaken : ¬ ∀ (s : Store) (ops : Bool → Operation)
    (trace : List (Bool × Txn.Event)) (sys : Server Bool) (id : UUID), Reachable s →
    Txn.Run (clients s ops) trace sys → ClockForward ops trace → s.stepsOf id = [] →
    ∀ r r', r ∈ sys.store.stepsOf id → r' ∈ sys.store.stepsOf id →
      r.sequenceNumber < r'.sequenceNumber → r.createdAt ≤ r'.createdAt := by
  intro hclaim
  obtain ⟨trace, sys, hrun, hstore⟩ := overtaken_run Triage.started (Triage.timed 5 11 22)
    (Triage.timed 6 12 20) rfl (d := ⟨⟨4, 3, 2, .completed, 12, 10, some 11, some "resolved"⟩,
      ⟨5, 4, 2, 2, 11, 22, ⟨.human, none⟩, none, [], none, 11⟩, false⟩) (by decide +kernel)
  have hclock : ClockForward (overtaking (Triage.timed 5 11 22) (Triage.timed 6 12 20))
      ((false, .begin) :: trace) := by
    rintro j k a b (hj | hj) (hk | hk) - hbegins <;> cases j <;> cases k <;> cases hj <;> cases hk
    · exact le_rfl
    · exact (by decide : 11 ≤ 12)
    · rw [BeginsBefore, List.idxOf_cons_self] at hbegins
      exact absurd hbegins (Nat.not_lt_zero _)
    · exact le_rfl
  have hlater := hclaim Triage.started _ _ sys 4 Triage.reachable_started hrun hclock
    (by decide +kernel) ⟨6, 4, 2, 1, 10, 20, ⟨.human, none⟩, none, none, none, 12⟩
    ⟨5, 4, 2, 2, 11, 22, ⟨.human, none⟩, none, none, none, 11⟩
    (by rw [hstore]; decide +kernel) (by rw [hstore]; decide +kernel) (by decide)
  exact absurd hlater (by decide)

end Interbellum
