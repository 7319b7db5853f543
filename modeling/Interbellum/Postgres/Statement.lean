import Interbellum.Postgres.Locks
import Interbellum.Txn.Discipline

/-!
# Statements, errors and transactions

What a statement answers is a function of the tables as its transaction sees them: rows or an
error, the row locks it takes and the rows it writes. Constraints are checked in the order
in which the server checks them; an input that a column type cannot represent is an error
of its own kind. `translate` maps what comes back to application errors by constraint name.
-/

namespace Interbellum

inductive PgCode where
  | uniqueViolation
  | foreignKeyViolation
  | checkViolation
  deriving DecidableEq, Repr

/-- What a repository function may fail with: an application error, a query without a row,
a constraint violation, or anything else the driver or the server reports. -/
inductive Err where
  | app (e : AppError)
  | noRows
  | pg (code : PgCode) (constraint : String)
  | other
  deriving DecidableEq, Repr

def translate : Err → AppError
  | .app e => e
  | .noRows => .internal
  | .other => .internal
  | .pg .uniqueViolation constraint =>
    if constraint = "playbook_edges_from_node_id_label_key" then
      .validation "two choices at the same node share a label; labels must be unique per node" []
    else if constraint = "uq_alerts_external_id" then
      .new .conflict "an alert with this external_id already exists" []
    else if constraint = "uq_investigation_steps_idempotency" then
      .new .idempotencyKeyReused
        "this idempotency key was already used for this investigation" []
    else if constraint = "investigation_steps_investigation_id_sequence_number_key" then
      .new .conflict "a concurrent decision was applied to this investigation; retry" []
    else if constraint = "playbook_nodes_pkey" ∨ constraint = "playbook_edges_pkey" then
      .validation ("a node or edge id in this graph already exists; graph ids are " ++
        "client-supplied and must be unique across playbooks") []
    else if constraint = "playbook_versions_playbook_id_version_key" then
      .new .conflict "a concurrent request created this playbook version; retry" []
    else .new .conflict "conflicting record already exists" []
  | .pg .foreignKeyViolation constraint =>
    if constraint = "fk_playbook_versions_root_node" then
      .validation "root_node_id must reference a node in this version" []
    else if constraint = "fk_playbook_edges_from_node_same_version" ∨
        constraint = "fk_playbook_edges_to_node_same_version" then
      .validation "every edge must connect two nodes declared in this version" []
    else if constraint = "investigations_alert_id_fkey" then .notFound "alert"
    else if constraint = "investigations_playbook_version_id_fkey" then
      .notFound "playbook version"
    else .validation "request references a resource that does not exist" []
  | .pg .checkViolation constraint =>
    if constraint = "chk_playbook_nodes_terminal_resolution" then
      .validation
        "terminal_resolution is required for terminal nodes and forbidden for decision nodes" []
    else .validation "request violates a data integrity rule" []

/-- `translate` as a step of the error path: its result is an application error. -/
def translated (err : Err) : Err := .app (translate err)

def notFound (resource : String) : Err → Err
  | .noRows => .app (.notFound resource)
  | err => translated err

/-! ## Answers -/

structure Answer (β : Type) where
  result : Except Err β
  locks : Locks
  writes : List Write

namespace Answer

variable {β : Type}

/-- A failing statement leaves nothing behind but the need to roll back. -/
def fail (err : Err) : Answer β := ⟨.error err, [], []⟩

def read (b : β) : Answer β := ⟨.ok b, [], []⟩

/-- A query of at most one row. -/
def row : Option β → Answer β
  | none => fail .noRows
  | some b => read b

/-- A query of at most one row that locks the row. -/
def lockRow (key : LockKey) (mode : Txn.LockMode) : Option β → Answer β
  | none => fail .noRows
  | some b => ⟨.ok b, [(key, mode)], []⟩

/-- Fail with the first violation, if there is one. -/
def guarded (violations : List (Bool × Err)) (a : Answer β) : Answer β :=
  match violations.find? Prod.fst with
  | some v => fail v.2
  | none => a

theorem guarded_ok {violations : List (Bool × Err)} {a : Answer β} {b : β}
    (h : (guarded violations a).result = .ok b) :
    (∀ v ∈ violations, v.1 = false) ∧ guarded violations a = a := by
  cases hf : violations.find? Prod.fst with
  | none =>
    refine ⟨?_, by simp only [guarded, hf]⟩
    simpa using hf
  | some v => simp [guarded, hf, fail] at h

theorem guarded_of_valid {violations : List (Bool × Err)} (a : Answer β)
    (h : ∀ v ∈ violations, v.1 = false) : guarded violations a = a := by
  have hf : violations.find? Prod.fst = none := by simpa using h
  simp only [guarded, hf]

theorem guarded_cases (violations : List (Bool × Err)) (a : Answer β) :
    (∃ v ∈ violations, v.1 = true ∧ guarded violations a = fail v.2) ∨
      (∀ v ∈ violations, v.1 = false) ∧ guarded violations a = a := by
  cases hf : violations.find? Prod.fst with
  | none =>
    have hchecks : ∀ v ∈ violations, v.1 = false := by simpa using hf
    exact .inr ⟨hchecks, guarded_of_valid a hchecks⟩
  | some v =>
    refine .inl ⟨v, List.mem_of_find?_eq_some hf, List.find?_some hf, ?_⟩
    simp only [guarded, hf]

/-- A guarded answer is one that fails, or the answer with all checks passed. -/
theorem of_guarded {P : Answer β → Prop} {violations : List (Bool × Err)} {a : Answer β}
    (hfail : ∀ e, P (fail e)) (hok : (∀ v ∈ violations, v.1 = false) → P a) :
    P (guarded violations a) := by
  cases hf : violations.find? Prod.fst with
  | none =>
    have hchecks : ∀ v ∈ violations, v.1 = false := by simpa using hf
    rw [guarded_of_valid a hchecks]
    exact hok hchecks
  | some v =>
    simp only [guarded, hf]
    exact hfail v.2

theorem guarded_error {violations : List (Bool × Err)} {a : Answer β} {e : Err}
    (h : (guarded violations a).result = .error e) :
    (∃ v ∈ violations, v.1 = true ∧ v.2 = e) ∨
      (∀ v ∈ violations, v.1 = false) ∧ a.result = .error e := by
  cases hf : violations.find? Prod.fst with
  | none =>
    simp only [guarded, hf] at h
    exact .inr ⟨by simpa using hf, h⟩
  | some v =>
    simp only [guarded, hf, fail] at h
    exact .inl ⟨v, List.mem_of_find?_eq_some hf, List.find?_some hf, Except.error.inj h⟩

end Answer

/-- Work inside a transaction. -/
abbrev Db := ExceptT Err (Txn.Body Store Write LockKey)

/-- Send one statement; `onError` is what the code does with an error of it. -/
def sql {β : Type} (f : Store → Answer β) (onError : Err → Err) : Db β :=
  ExceptT.mk (.stmt (fun s => ⟨(f s).locks, (f s).writes⟩)
    fun s => .ret ((f s).result.mapError onError))

/-- Work of a request: transactions and single statements. -/
abbrev Svc := ExceptT AppError (Txn.Call Store Write LockKey)

/-- Each statement on the pool, outside of a transaction. -/
def pool {β : Type} (body : Db β) : Txn.Call Store Write LockKey (Except Err β) :=
  .autocommit body.run

/-- Statements on the pool whose errors are application errors. -/
def onPool {β : Type} (body : Db β) : Svc β :=
  ExceptT.mk (.mapError translate <$> pool body)

def inTx {β : Type} (fn : Db β) : Svc β :=
  ExceptT.mk (.tx fn.run fun r => .ret (r.mapError translate))

/-- A `REPEATABLE READ`, read-only transaction. -/
def inSnapshot {β : Type} (fn : Db β) : Svc β :=
  ExceptT.mk (.snapshot fn.run fun r => .ret (r.mapError translate))

/-! ## Rules -/

section

variable {β γ : Type} {D : Txn.Discipline Store LockKey} {s : Store} {E : Err → Prop}
  {ws : List Write} {ls : Locks}

theorem run_sql (f : Store → Answer β) (onError : Err → Err) (s : Store) (ws : List Write) :
    (sql f onError).run.run s ws =
      ((f (Txn.applyAll ws s)).result.mapError onError, ws ++ (f (Txn.applyAll ws s)).writes) :=
  rfl

theorem ok_of_sql {f : Store → Answer β} {onError : Err → Err} {ws' : List Write} {b : β}
    (h : (sql f onError).run.run s ws = (.ok b, ws')) :
    (f (Txn.applyAll ws s)).result = .ok b ∧ ws' = ws ++ (f (Txn.applyAll ws s)).writes := by
  rw [run_sql, Prod.mk.injEq] at h
  obtain ⟨hresult, rfl⟩ := h
  cases hr : (f (Txn.applyAll ws s)).result with
  | error e => simp [hr, Except.mapError] at hresult
  | ok b' => exact ⟨by simpa [hr, Except.mapError] using hresult, rfl⟩

/-- What a statement that returns `ok` has checked. -/
theorem ok_of_guarded {violations : Store → List (Bool × Err)} {answer : Store → Answer β}
    {onError : Err → Err} {ws' : List Write} {b : β}
    (h : (sql (fun s => .guarded (violations s) (answer s)) onError).run.run s ws = (.ok b, ws')) :
    (∀ v ∈ violations (Txn.applyAll ws s), v.1 = false) ∧
      (answer (Txn.applyAll ws s)).result = .ok b ∧
        ws' = ws ++ (answer (Txn.applyAll ws s)).writes := by
  obtain ⟨hresult, hws⟩ := ok_of_sql h
  obtain ⟨hchecks, hsame⟩ := Answer.guarded_ok hresult
  rw [hsame] at hresult hws
  exact ⟨hchecks, hresult, hws⟩

theorem read_sql (f : Store → Answer β) (onError : Err → Err) (s : Store) :
    (sql f onError).run.read s = (f s).result.mapError onError := rfl

theorem keeps_sql {Q : β → List Write → Locks → Prop} {f : Store → Answer β}
    {onError : Err → Err}
    (herror : ∀ e, (f (Txn.applyAll ws s)).result = .error e → E (onError e))
    (hok : ∀ b, (f (Txn.applyAll ws s)).result = .ok b →
      (∀ s', D.Rely (ls ++ (f (Txn.applyAll ws s)).locks) s s' →
        f (Txn.applyAll ws s') = f (Txn.applyAll ws s)) ∧
      Q b (ws ++ (f (Txn.applyAll ws s)).writes) (ls ++ (f (Txn.applyAll ws s)).locks)) :
    (sql f onError).run.Keeps D s Q E ws ls := by
  cases hr : (f (Txn.applyAll ws s)).result with
  | error e =>
    refine .inl ⟨onError e, ?_, herror e hr⟩
    simp only [hr]
    rfl
  | ok b =>
    obtain ⟨hsteady, hQ⟩ := hok b hr
    refine .inr ⟨?_, ?_⟩
    · intro s' hrely
      simp only [hsteady s' hrely, and_self]
    · simp only [hr]
      exact hQ

theorem respects_sql {R : Store → Store → Prop} {P : β → Prop} {f : Store → Answer β}
    {onError : Err → Err} (hf : ∀ s s', R s s' → f s = f s')
    (hP : ∀ s b, (f s).result = .ok b → P b) : (sql f onError).run.Respects R P := by
  constructor
  · intro s s' hR
    simp only [hf s s' hR, and_self]
  · intro s
    cases hr : (f s).result with
    | error e =>
      simp only [hr]
      trivial
    | ok b =>
      simp only [hr]
      exact hP s b hr

/-- The rule for a statement that is checked against constraints. -/
theorem keeps_checked {Q : β → List Write → Locks → Prop}
    {violations : Store → List (Bool × Err)} {answer : Store → Answer β} {onError : Err → Err}
    (herror : ∀ v ∈ violations (Txn.applyAll ws s), v.1 = true → E (onError v.2))
    (hfail : ∀ e, (∀ v ∈ violations (Txn.applyAll ws s), v.1 = false) →
      (answer (Txn.applyAll ws s)).result = .error e → E (onError e))
    (h : ∀ b, (∀ v ∈ violations (Txn.applyAll ws s), v.1 = false) →
      (answer (Txn.applyAll ws s)).result = .ok b →
      (∀ s', D.Rely (ls ++ (answer (Txn.applyAll ws s)).locks) s s' →
        violations (Txn.applyAll ws s') = violations (Txn.applyAll ws s) ∧
          answer (Txn.applyAll ws s') = answer (Txn.applyAll ws s)) ∧
      Q b (ws ++ (answer (Txn.applyAll ws s)).writes)
        (ls ++ (answer (Txn.applyAll ws s)).locks)) :
    (sql (fun s => .guarded (violations s) (answer s)) onError).run.Keeps D s Q E ws ls := by
  refine keeps_sql ?_ ?_
  · intro e he
    rcases Answer.guarded_error he with ⟨v, hv, htrue, rfl⟩ | ⟨hchecks, he⟩
    · exact herror v hv htrue
    · exact hfail e hchecks he
  intro b hb
  obtain ⟨hchecks, hguarded⟩ := Answer.guarded_ok hb
  rw [hguarded] at hb ⊢
  obtain ⟨hsteady, hQ⟩ := h b hchecks hb
  refine ⟨?_, hQ⟩
  intro s' hrely
  obtain ⟨hviolations, hanswer⟩ := hsteady s' hrely
  rw [hviolations, hanswer, hguarded]

theorem keeps_guarded {Q : β → List Write → Locks → Prop}
    {violations : Store → List (Bool × Err)} {answer : Store → Answer β} {onError : Err → Err}
    (h : ∀ b, (∀ v ∈ violations (Txn.applyAll ws s), v.1 = false) →
      (answer (Txn.applyAll ws s)).result = .ok b →
      (∀ s', D.Rely (ls ++ (answer (Txn.applyAll ws s)).locks) s s' →
        violations (Txn.applyAll ws s') = violations (Txn.applyAll ws s) ∧
          answer (Txn.applyAll ws s') = answer (Txn.applyAll ws s)) ∧
      Q b (ws ++ (answer (Txn.applyAll ws s)).writes)
        (ls ++ (answer (Txn.applyAll ws s)).locks)) :
    (sql (fun s => .guarded (violations s) (answer s)) onError).run.Keeps D s Q (fun _ => True)
      ws ls := keeps_checked (fun _ _ _ => trivial) (fun _ _ _ => trivial) h

end

/-! ## Rules for requests -/

section

variable {β γ : Type} {D : Txn.Discipline Store LockKey} {G : Store → Store → Prop} {s : Store}

/-- What a request or a statement is held to when it answers `ok`. -/
def Returns {ε : Type} (Q : β → Store → Prop) : Except ε β → Store → Prop
  | .ok b, s => Q b s
  | .error _, _ => True

/-- What a request or a statement is held to for either answer. -/
def Yields {ε : Type} (E : ε → Prop) (Q : β → Store → Prop) : Except ε β → Store → Prop
  | .ok b, s => Q b s
  | .error e, _ => E e

theorem Yields.mono {ε : Type} {E E' : ε → Prop} {Q Q' : β → Store → Prop} {r : Except ε β}
    {s : Store} (h : Yields E Q r s) (hE : ∀ e, E e → E' e) (hQ : ∀ b, Q b s → Q' b s) :
    Yields E' Q' r s := by
  cases r with
  | error e => exact hE e h
  | ok b => exact hQ b h

theorem keeps_bind_yields {ε : Type} {E : ε → Prop} {P : β → Store → Prop}
    {Q : γ → Store → Prop} {x : ExceptT ε (Txn.Call Store Write LockKey) β}
    {k : β → ExceptT ε (Txn.Call Store Write LockKey) γ} (hs : D.Inv s)
    (h : x.run.Keeps D G (Yields E P) s)
    (hok : ∀ b t, D.Inv t → D.Evolves s t → P b t → (k b).run.Keeps D G (Yields E Q) t) :
    (x >>= k).run.Keeps D G (Yields E Q) s :=
  .bind_except hs h hok fun _ _ he _ _ _ => he

theorem keeps_bind {ε : Type} {P : β → Store → Prop} {Q : γ → Store → Prop}
    {x : ExceptT ε (Txn.Call Store Write LockKey) β}
    {k : β → ExceptT ε (Txn.Call Store Write LockKey) γ} (hs : D.Inv s)
    (h : x.run.Keeps D G (Returns P) s)
    (hok : ∀ b t, D.Inv t → D.Evolves s t → P b t → (k b).run.Keeps D G (Returns Q) t) :
    (x >>= k).run.Keeps D G (Returns Q) s :=
  .bind_except hs h hok fun _ _ _ _ _ _ => trivial

/-- The rule for going on from a request whose answer is known. -/
theorem keeps_bind_ok {ε : Type} {b : β} {Q : Except ε γ → Store → Prop}
    {x : ExceptT ε (Txn.Call Store Write LockKey) β}
    {k : β → ExceptT ε (Txn.Call Store Write LockKey) γ} (hs : D.Inv s)
    (h : x.run.Keeps D G (fun r _ => r = .ok b) s)
    (hok : ∀ t, D.Inv t → D.Evolves s t → (k b).run.Keeps D G Q t) :
    (x >>= k).run.Keeps D G Q s := by
  refine .bind_except hs h ?_ ?_
  · intro b' t ht het hb
    rw [Except.ok.inj hb]
    exact hok t ht het
  · intro e _ he
    cases he

/-- The rule for a transaction: its body keeps to the discipline from every state, and may
commit when it returns `ok`. -/
theorem keeps_inTx {Q : Except AppError β → Store → Prop} {body : Db β}
    (h : ∀ t, D.Inv t → D.Evolves s t → body.run.Keeps D t
      (fun b ws ls => D.Commits G t ws ls ∧
        ∀ u, D.Inv u → D.Evolves (Txn.applyAll ws t) u → Q (.ok b) u)
      (fun e => ∀ u, D.Inv u → D.Evolves t u → Q (.error (translate e)) u) [] []) :
    (inTx body).run.Keeps D G Q s := h

/-- A transaction that runs alone commits what it has written, or nothing. -/
theorem run_inTx (body : Db β) (s : Store) :
    (inTx body).run.run s = match body.run.run s [] with
      | (.ok b, ws) => (.ok b, Txn.applyAll ws s)
      | (.error e, _) => (.error (translate e), s) := by
  show Txn.Call.run (.tx body.run _) s = _
  simp only [Txn.Call.run]
  rcases body.run.run s [] with ⟨e | b, ws⟩ <;> rfl

theorem keeps_inSnapshot {Q : Except AppError β → Store → Prop} {body : Db β}
    (h : ∀ t, D.Inv t → D.Evolves s t → ∀ u, D.Inv u → D.Evolves t u →
      Q ((body.run.read t).mapError translate) u) :
    (inSnapshot body).run.Keeps D G Q s := h

theorem pool_bind (x : Db β) (k : β → Db γ) :
    pool (x >>= k) = (ExceptT.mk (pool x) >>= fun b => ExceptT.mk (pool (k b))).run := by
  refine (Txn.Call.autocommit_bind x.run (ExceptT.bindCont k)).trans ?_
  refine congrArg (pool x >>= ·) (funext ?_)
  rintro (e | b) <;> rfl

theorem keeps_pool_bind {E : Err → Prop} {P : β → Store → Prop} {Q : γ → Store → Prop} {x : Db β}
    {k : β → Db γ} (hs : D.Inv s) (h : (pool x).Keeps D G (Yields E P) s)
    (hok : ∀ b t, D.Inv t → D.Evolves s t → P b t → (pool (k b)).Keeps D G (Yields E Q) t) :
    (pool (x >>= k)).Keeps D G (Yields E Q) s := by
  rw [pool_bind]
  exact keeps_bind_yields hs h hok

theorem keeps_pool_bind_ok {b : β} {Q : Except Err γ → Store → Prop} {x : Db β} {k : β → Db γ}
    (hs : D.Inv s) (h : (pool x).Keeps D G (fun r _ => r = .ok b) s)
    (hok : ∀ t, D.Inv t → D.Evolves s t → (pool (k b)).Keeps D G Q t) :
    (pool (x >>= k)).Keeps D G Q s := by
  rw [pool_bind]
  exact keeps_bind_ok hs h hok

/-- The rule for one statement on the pool. -/
theorem keeps_pool_sql {Q : Except Err β → Store → Prop} {f : Store → Answer β}
    {onError : Err → Err}
    (h : ∀ t, D.Inv t → D.Evolves s t → D.Commits G t (f t).writes (f t).locks ∧
      ∀ u, D.Inv u → D.Evolves (Txn.applyAll (f t).writes t) u →
        Q ((f t).result.mapError onError) u) :
    (pool (sql f onError)).Keeps D G Q s := h

theorem keeps_onPool {Q : Except AppError β → Store → Prop} {body : Db β}
    (h : (pool body).Keeps D G (fun r => Q (r.mapError translate)) s) :
    (onPool body).run.Keeps D G Q s := Txn.Call.Keeps.map h

theorem keeps_onPool_yields {E : AppError → Prop} {Q : β → Store → Prop} {body : Db β}
    (h : (pool body).Keeps D G (Yields (fun e => E (translate e)) Q) s) :
    (onPool body).run.Keeps D G (Yields E Q) s := by
  refine keeps_onPool (h.mono (fun _ _ hG => hG) ?_)
  rintro (e | b) t hQ
  · exact hQ
  · exact hQ

theorem keeps_onPool_ok {b : β} {body : Db β}
    (h : (pool body).Keeps D G (fun r _ => r = .ok b) s) :
    (onPool body).run.Keeps D G (fun r _ => r = .ok b) s := by
  refine keeps_onPool (h.mono (fun _ _ hG => hG) ?_)
  rintro r _ rfl
  rfl

end

end Interbellum
