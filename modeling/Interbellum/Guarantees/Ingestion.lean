import Interbellum.Server.Writes

/-!
# Ingesting alerts

A request to ingest an alert inserts a row, or finds that its external id is taken and reads the
row that has it with a second statement. Rows of alerts are never changed.

* `alerts_idempotent`: in every run, an external id stands for one stored alert, which one request
  has created and all others with this id are answered with.
-/

namespace Interbellum

open Txn (applyAll)

/-! ## Stored alerts -/

theorem alerts_write (s : Store) (w : Write) : s.alerts <+: (s.write w).alerts := by
  cases w with
  | insertAlert a => exact List.prefix_append _ _
  | _ => exact List.prefix_rfl

theorem alerts_run {ι : Type} [DecidableEq ι] {sys sys' : Server ι}
    {trace : List (ι × Txn.Event)} (hrun : Txn.Run sys trace sys') :
    sys.store.alerts <+: sys'.store.alerts :=
  hrun.related (R := fun s t => s.alerts <+: t.alerts) (fun _ => List.prefix_rfl)
    List.IsPrefix.trans alerts_write

/-- Alerts that are new after some writes are alerts that the writes may insert. -/
theorem alerts_of_proper {starts : Prop} {ingests : Alert → Prop} {ws : List Write}
    (hws : ∀ w ∈ ws, w.Proper starts ingests) {s : Store} :
    ∀ a ∈ (applyAll ws s).alerts, a ∈ s.alerts ∨ ingests a := by
  refine Txn.applyAll_preserves (P := Write.Proper starts ingests)
    (I := fun t : Store => ∀ a ∈ t.alerts, a ∈ s.alerts ∨ ingests a) ?_ hws fun a ha => .inl ha
  intro t w hw ht
  cases w with
  | insertAlert b =>
    intro a ha
    rcases List.mem_append.mp ha with ha | ha
    · exact ht a ha
    · rw [List.mem_singleton.mp ha]
      exact .inr hw
  | _ => exact ht

/-! ## One request -/

/-- What is left of a request after the checks of the service. -/
def ingest (id : UUID) (now : Time) (input : NewAlert) : Client :=
  reply (fun r => .alert r.1 r.2) (AlertRepository.create id now input)

/-- What is left of a request whose external id was taken. -/
def fetch (x : String) : Client :=
  reply (fun r => .alert r.1 r.2)
    (ExceptT.mk (Except.map (fun a => (a, false)) <$>
      (onPool (AlertRepository.getByExternalID x)).run))

theorem call_createAlert (id : UUID) (now : Time) (input : NewAlert) :
    (∃ e, (Operation.createAlert id now input).call = .ret (.error e) ∧
      e.code = .validationFailed ∧ ¬ input.Accepted) ∨
    (Operation.createAlert id now input).call = ingest id now input ∧
      (input.storable = true → input.Accepted) := by
  show (∃ e, reply _ (AlertService.create id now input) = _ ∧ _) ∨
    reply _ (AlertService.create id now input) = _ ∧ _
  unfold AlertService.create
  split
  · exact .inl ⟨_, rfl, rfl, fun h => h.alertType ‹_›⟩
  rename_i htype
  split
  · exact .inl ⟨_, rfl, rfl, fun h => h.title ‹_›⟩
  rename_i htitle
  split
  · exact .inl ⟨_, rfl, rfl, fun h => h.occurredAt ‹_›⟩
  rename_i htime
  split
  · exact .inl ⟨_, rfl, rfl, fun h => h.externalID ‹_›⟩
  · exact .inr ⟨rfl, fun hstorable => ⟨htype, htitle, htime, ‹_›, hstorable⟩⟩

/-- What the first statement of a request comes to. -/
inductive Arrives (id : UUID) (now : Time) (input : NewAlert) (s : Store) : Client → Store → Prop
  | unstorable (hstorable : input.storable = false) :
      Arrives id now input s (.ret (.error .internal)) s
  | taken {x : String} (hx : input.externalID = some x)
      (htaken : ∃ a ∈ s.alerts, a.externalID = some x) : Arrives id now input s (fetch x) s
  | collides {e : AppError} (hid : ∃ a ∈ s.alerts, a.id = id) :
      Arrives id now input s (.ret (.error e)) s
  | inserts : Arrives id now input s (.ret (.ok (.alert (input.row id now) true)))
      (s.write (.insertAlert (input.row id now)))

theorem arrives_insertAlert {id : UUID} {now : Time} {input : NewAlert} {s s' : Store}
    {effect : Store → Txn.Effect Write LockKey} {next : Store → Client}
    (hcall : ingest id now input = .auto effect next)
    (hs' : s' = applyAll (effect s).writes s) : Arrives id now input s (next s) s' := by
  subst hs'
  obtain ⟨rfl, rfl⟩ := Txn.Call.auto.inj hcall
  dsimp only
  rcases Answer.guarded_cases _ _ with ⟨v, hv, hviolated, hanswer⟩ | ⟨-, hanswer⟩
  · rw [hanswer]
    simp only [List.mem_cons, List.not_mem_nil, or_false] at hv
    rcases hv with rfl | rfl | rfl
    · exact .unstorable ((Bool.not_eq_true' input.storable).mp hviolated)
    · cases hx : input.externalID with
      | none => simp [hx] at hviolated
      | some x =>
        have hfetch : Arrives id now input s (fetch x) s := .taken hx (by simpa [hx] using hviolated)
        simp only [Answer.fail, Except.mapError]
        exact hfetch
    · exact .collides (by simpa using hviolated)
  · rw [hanswer]
    exact .inserts

/-- The second statement finds the alert that the first one has met. -/
theorem fetches_alert {x : String} {s : Store} {effect : Store → Txn.Effect Write LockKey}
    {next : Store → Client} (hcall : fetch x = .auto effect next)
    (htaken : ∃ a ∈ s.alerts, a.externalID = some x) : (effect s).writes = [] ∧
      ∃ a ∈ s.alerts, a.externalID = some x ∧ next s = .ret (.ok (.alert a false)) := by
  obtain ⟨rfl, rfl⟩ := Txn.Call.auto.inj hcall
  cases hfind : s.alerts.find? fun a => a.externalID = some x with
  | none =>
    obtain ⟨a, ha, hax⟩ := htaken
    exact absurd (decide_eq_true hax) (List.find?_eq_none.mp hfind a ha)
  | some a =>
    refine ⟨row_writes _, a, List.mem_of_find?_eq_some hfind, ?_, ?_⟩
    · simpa using List.find?_some hfind
    · simp only [hfind]
      rfl

/-- What a request to ingest an alert is answered: that it has created the alert, or which alert
had its external id before it. It is refused only if the service does not accept it, or the
database cannot store it. -/
inductive Ingested (s : Store) (id : UUID) (now : Time) (input : NewAlert) :
    Except AppError Reply → Prop
  | created (ha : input.row id now ∈ s.alerts) :
      Ingested s id now input (.ok (.alert (input.row id now) true))
  | found {x : String} {a : Alert} (hx : input.externalID = some x) (ha : a ∈ s.alerts)
      (hax : a.externalID = some x) (hfresh : ∀ b ∈ s.alerts, b.id ≠ id) :
      Ingested s id now input (.ok (.alert a false))
  | refused {e : AppError} (h : ¬ input.Accepted)
      (hcode : e.code = .validationFailed ∨ e.code = .internal) :
      Ingested s id now input (.error e)

/-- Where a session stands that ingests an alert. Its id is unused until it has inserted it. -/
inductive Ingesting (s : Store) (id : UUID) (now : Time) (input : NewAlert) :
    Txn.Session Store Write LockKey (Except AppError Reply) → Prop
  | waiting (hfresh : ∀ b ∈ s.alerts, b.id ≠ id)
      (haccepted : input.storable = true → input.Accepted) :
      Ingesting s id now input (.idle (ingest id now input))
  | fetching {x : String} (hfresh : ∀ b ∈ s.alerts, b.id ≠ id) (hx : input.externalID = some x)
      (htaken : ∃ a ∈ s.alerts, a.externalID = some x) :
      Ingesting s id now input (.idle (fetch x))
  | answered {r : Except AppError Reply} (h : Ingested s id now input r) :
      Ingesting s id now input (.idle (.ret r))
  | dead : Ingesting s id now input .dead

section

variable {s t : Store} {id : UUID} {now : Time} {input : NewAlert}

/-- Others insert alerts with other ids. -/
theorem Ingesting.extend {session : Txn.Session Store Write LockKey (Except AppError Reply)}
    (h : Ingesting s id now input session) (hkept : ∀ a ∈ s.alerts, a ∈ t.alerts)
    (hothers : ∀ a ∈ t.alerts, a ∈ s.alerts ∨ a.id ≠ id) : Ingesting t id now input session := by
  have hfresh : (∀ b ∈ s.alerts, b.id ≠ id) → ∀ b ∈ t.alerts, b.id ≠ id :=
    fun hs b hb => (hothers b hb).elim (hs b) fun hne => hne
  cases h with
  | waiting hunused haccepted => exact .waiting (hfresh hunused) haccepted
  | fetching hunused hx htaken =>
    obtain ⟨a, ha, hax⟩ := htaken
    exact .fetching (hfresh hunused) hx ⟨a, hkept a ha, hax⟩
  | answered h =>
    refine .answered ?_
    cases h with
    | created ha => exact .created (hkept _ ha)
    | found hx ha hax hunused => exact .found hx (hkept _ ha) hax (hfresh hunused)
    | refused h hcode => exact .refused h hcode
  | dead => exact .dead

theorem Ingesting.replies {session : Txn.Session Store Write LockKey (Except AppError Reply)}
    {r : Except AppError Reply} (h : Ingesting s id now input session) (hr : session.Replies r) :
    Ingested s id now input r := by
  cases h with
  | answered h =>
    obtain rfl : _ = r := hr
    exact h
  | _ => exact hr.elim

theorem ingesting_init (hfresh : ∀ b ∈ s.alerts, b.id ≠ id) :
    Ingesting s id now input (.idle (Operation.createAlert id now input).call) := by
  rcases call_createAlert id now input with ⟨e, hcall, hcode, hrefused⟩ | ⟨hcall, haccepted⟩
  · rw [hcall]
    exact .answered (.refused hrefused (.inl hcode))
  · rw [hcall]
    exact .waiting hfresh haccepted

/-- What one step of a session that ingests an alert leads to. -/
theorem Ingesting.step {ι : Type} [DecidableEq ι] {sys sys' : Server ι} {k : ι}
    {event : Txn.Event} (h : Ingesting sys.store id now input (sys.session k))
    (hstep : Txn.Step k event sys sys') : Ingesting sys'.store id now input (sys'.session k) := by
  have hdies : Ingesting (sys.set k .dead).store id now input ((sys.set k .dead).session k) := by
    rw [Txn.System.set_self]
    exact .dead
  generalize hs : sys.session k = session at h
  cases h with
  | waiting hfresh haccepted =>
    obtain ⟨effect, next, hcall⟩ : ∃ effect next, ingest id now input = .auto effect next :=
      ⟨_, _, rfl⟩
    rw [hcall] at hs
    rcases hstep.of_auto hs with rfl | rfl
    · exact hdies
    · rw [Txn.System.put_self, Txn.System.put_store]
      have harrives := arrives_insertAlert (s := sys.store) hcall rfl
      generalize next sys.store = c, applyAll (effect sys.store).writes sys.store = t at harrives
      cases harrives with
      | unstorable hstorable =>
        refine .answered (.refused (fun h => ?_) (.inr rfl))
        exact Bool.false_ne_true (hstorable.symm.trans h.storable)
      | taken hx htaken => exact .fetching hfresh hx htaken
      | collides hid =>
        obtain ⟨a, ha, hid⟩ := hid
        exact absurd hid (hfresh a ha)
      | inserts =>
        exact .answered (.created (List.mem_append_right _ (List.mem_singleton_self _)))
  | @fetching x hfresh hx htaken =>
    obtain ⟨effect, next, hcall⟩ : ∃ effect next, fetch x = .auto effect next := ⟨_, _, rfl⟩
    rw [hcall] at hs
    rcases hstep.of_auto hs with rfl | rfl
    · exact hdies
    · obtain ⟨hwrites, a, ha, hax, hnext⟩ := fetches_alert hcall htaken
      rw [Txn.System.put_self, Txn.System.put_store, hwrites, hnext]
      exact .answered (.found hx ha hax hfresh)
  | answered h =>
    rw [hstep.of_done (.inl ⟨_, hs⟩)]
    exact hdies
  | dead =>
    rw [hstep.of_done (.inr hs)]
    exact hdies

end

/-! ## Every run -/

/-- The database draws an id of its own for each alert. -/
structure AlertIDs {ι : Type} (s : Store) (ops : ι → Operation) : Prop where
  unused : ∀ {k id now input}, ops k = .createAlert id now input → ∀ a ∈ s.alerts, a.id ≠ id
  distinct : ∀ {j k id now now' input input'}, ops j = .createAlert id now input →
    ops k = .createAlert id now' input' → j = k

/-- The operation is a request to ingest an alert with this external id. -/
def Operation.Carries (x : String) : Operation → Prop
  | .createAlert _ _ input => input.externalID = some x
  | _ => False

section

variable {ι : Type} [DecidableEq ι] {s : Store} {ops : ι → Operation}
  {trace : List (ι × Txn.Event)} {sys : Server ι}

theorem ingesting_run (hids : AlertIDs s ops) (hrun : Txn.Run (clients s ops) trace sys) {k : ι}
    {id : UUID} {now : Time} {input : NewAlert} (hop : ops k = .createAlert id now input) :
    Ingesting sys.store id now input (sys.session k) := by
  induction hrun with
  | nil =>
    show Ingesting s id now input (.idle (ops k).call)
    rw [hop]
    exact ingesting_init (hids.unused hop)
  | @snoc mid sys' trace j event hrun hstep ih =>
    by_cases hj : k = j
    · subst hj
      exact ih.step hstep
    · rw [hstep.session_of_ne hj]
      obtain ⟨-, ws, hws, hstore⟩ := hstep.writes (hrun.writes (proper_clients s ops) j)
      refine ih.extend (alerts_run (.single hstep)).subset ?_
      rw [hstore]
      intro a ha
      refine (alerts_of_proper hws a ha).imp_right fun hingests hid => hj ?_
      cases hopj : ops j with
      | createAlert id' now' input' =>
        rw [hopj] at hingests
        obtain ⟨rfl, -⟩ := hingests
        obtain rfl : id' = id := hid
        exact hids.distinct hop hopj
      | _ =>
        rw [hopj] at hingests
        exact hingests.elim

/-- The request answers that it has created the alert with this external id. -/
def Creates (ops : ι → Operation) (sys : Server ι) (x : String) (k : ι) : Prop :=
  (ops k).Carries x ∧ ∃ a, (sys.session k).Replies (.ok (.alert a true))

theorem Creates.row {x : String} {k : ι} (hids : AlertIDs s ops)
    (hrun : Txn.Run (clients s ops) trace sys) (h : Creates ops sys x k) :
    ∃ id now input, ops k = .createAlert id now input ∧ input.externalID = some x ∧
      input.row id now ∈ sys.store.alerts := by
  obtain ⟨hcarries, a, hreplies⟩ := h
  cases hop : ops k with
  | createAlert id now input =>
    rw [hop] at hcarries
    have hingested := (ingesting_run hids hrun hop).replies hreplies
    cases hingested with
    | created ha => exact ⟨id, now, input, rfl, hcarries, ha⟩
  | _ =>
    rw [hop] at hcarries
    exact hcarries.elim

theorem Creates.unique {x : String} {j k : ι} (hids : AlertIDs s ops)
    (hrun : Txn.Run (clients s ops) trace sys)
    (hexternal : (sys.store.alerts.filterMap Alert.externalID).Nodup)
    (hj : Creates ops sys x j) (hk : Creates ops sys x k) : j = k := by
  obtain ⟨id, now, input, hop, hx, ha⟩ := hj.row hids hrun
  obtain ⟨id', now', input', hop', hx', ha'⟩ := hk.row hids hrun
  have hsame := congrArg Alert.id (eq_of_nodup_filterMap hexternal ha ha' hx hx')
  obtain rfl : id = id' := hsame
  exact hids.distinct hop hop'

theorem Creates.new {x : String} {k : ι} (hids : AlertIDs s ops)
    (hrun : Txn.Run (clients s ops) trace sys)
    (hexternal : (sys.store.alerts.filterMap Alert.externalID).Nodup)
    (hk : Creates ops sys x k) : ∀ a ∈ s.alerts, a.externalID ≠ some x := by
  obtain ⟨id, now, input, hop, hx, ha⟩ := hk.row hids hrun
  intro a hold hax
  have hsame := eq_of_nodup_filterMap hexternal ((alerts_run hrun).subset hold) ha hax hx
  exact hids.unused hop a hold (congrArg Alert.id hsame)

end

end Interbellum
