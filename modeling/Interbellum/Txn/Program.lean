import Mathlib.Data.List.Basic

/-!
# Programs that run transactions

A `Body` is what a client does inside one transaction: it sends statements, each a function
of the database as the transaction sees it, and goes on with what they answer. A statement
names the locks it takes and the rows it writes. A `Call` is what a client does altogether:
statements of their own, transactions that commit when their body returns `ok` and roll back
when it returns `error`, and read-only transactions that work on one snapshot.

Nothing here refers to other clients. `Body.run` and `Call.run` are the meaning of a program
that has the database to itself.
-/

namespace Interbellum.Txn

/-- The strengths of a row lock, weakest first. -/
inductive LockMode where
  | keyShare
  | share
  | noKeyUpdate
  | update
  deriving DecidableEq, Repr

/-- Whether two transactions cannot hold locks of these strengths on one row. -/
def LockMode.conflicts : LockMode → LockMode → Bool
  | .keyShare, .update => true
  | .keyShare, _ => false
  | .share, .noKeyUpdate => true
  | .share, .update => true
  | .share, _ => false
  | .noKeyUpdate, .keyShare => false
  | .noKeyUpdate, _ => true
  | .update, _ => true

theorem LockMode.conflicts_comm (m m' : LockMode) : m.conflicts m' = m'.conflicts m := by
  cases m <;> cases m' <;> rfl

abbrev Locks (κ : Type) := List (κ × LockMode)

/-- No lock of the first list conflicts with one of the second. -/
def Compatible {κ : Type} (ls ls' : Locks κ) : Prop :=
  ∀ l ∈ ls, ∀ l' ∈ ls', l.1 = l'.1 → l.2.conflicts l'.2 = false

theorem Compatible.symm {κ : Type} {ls ls' : Locks κ} (h : Compatible ls ls') :
    Compatible ls' ls := by
  intro l' hl' l hl he
  rw [LockMode.conflicts_comm]
  exact h l hl l' hl' he.symm

theorem compatible_nil_left {κ : Type} (ls : Locks κ) : Compatible [] ls := by
  simp [Compatible]

theorem compatible_nil_right {κ : Type} (ls : Locks κ) : Compatible ls [] := by
  simp [Compatible]

theorem compatible_append_left {κ : Type} {ls ls' ls'' : Locks κ} :
    Compatible (ls ++ ls') ls'' ↔ Compatible ls ls'' ∧ Compatible ls' ls'' := by
  simp only [Compatible, List.mem_append, or_imp, forall_and]

/-- A database state that writes of type `ω` can be applied to. -/
class Writable (σ : Type) (ω : outParam Type) where
  write : σ → ω → σ

section

variable {σ ω : Type} [Writable σ ω]

def applyAll (ws : List ω) (s : σ) : σ := ws.foldl Writable.write s

@[simp] theorem applyAll_nil (s : σ) : applyAll ([] : List ω) s = s := rfl

@[simp] theorem applyAll_cons (w : ω) (ws : List ω) (s : σ) :
    applyAll (w :: ws) s = applyAll ws (Writable.write s w) := rfl

@[simp] theorem applyAll_append (ws ws' : List ω) (s : σ) :
    applyAll (ws ++ ws') s = applyAll ws' (applyAll ws s) := List.foldl_append

end

/-- What a statement does besides answering. -/
structure Effect (ω κ : Type) where
  locks : Locks κ
  writes : List ω

/-! ## Inside a transaction -/

inductive Body (σ ω κ ρ : Type) where
  | ret (r : ρ)
  | stmt (effect : σ → Effect ω κ) (next : σ → Body σ ω κ ρ)

namespace Body

variable {σ ω κ ρ τ : Type}

def bind : Body σ ω κ ρ → (ρ → Body σ ω κ τ) → Body σ ω κ τ
  | .ret r, k => k r
  | .stmt effect next, k => .stmt effect fun s => (next s).bind k

instance : Monad (Body σ ω κ) where
  pure := .ret
  bind := bind

@[simp] theorem ret_bind (r : ρ) (k : ρ → Body σ ω κ τ) : (Body.ret r >>= k) = k r := rfl

@[simp] theorem stmt_bind (effect : σ → Effect ω κ) (next : σ → Body σ ω κ ρ)
    (k : ρ → Body σ ω κ τ) :
    (Body.stmt effect next >>= k) = .stmt effect fun s => next s >>= k := rfl

theorem pure_eq (r : ρ) : (pure r : Body σ ω κ ρ) = .ret r := rfl

theorem id_map (b : Body σ ω κ ρ) : id <$> b = b := by
  induction b with
  | ret r => rfl
  | stmt effect next ih => exact congrArg (Body.stmt effect) (funext ih)

theorem bind_assoc {υ : Type} (b : Body σ ω κ ρ) (k : ρ → Body σ ω κ τ)
    (k' : τ → Body σ ω κ υ) : b >>= k >>= k' = b >>= fun r => k r >>= k' := by
  induction b with
  | ret r => rfl
  | stmt effect next ih => exact congrArg (Body.stmt effect) (funext ih)

instance : LawfulMonad (Body σ ω κ) := LawfulMonad.mk' _ id_map (fun _ _ => rfl) bind_assoc

/-- The answer of a body that reads one state throughout. -/
def read : Body σ ω κ ρ → σ → ρ
  | .ret r, _ => r
  | .stmt _ next, s => (next s).read s

@[simp] theorem read_ret (r : ρ) (s : σ) : (Body.ret r : Body σ ω κ ρ).read s = r := rfl

@[simp] theorem read_stmt (effect : σ → Effect ω κ) (next : σ → Body σ ω κ ρ) (s : σ) :
    (Body.stmt effect next).read s = (next s).read s := rfl

@[simp] theorem read_bind (b : Body σ ω κ ρ) (k : ρ → Body σ ω κ τ) (s : σ) :
    (b >>= k).read s = (k (b.read s)).read s := by
  induction b with
  | ret r => rfl
  | stmt effect next ih => exact ih s

theorem read_bind_except {ε β γ : Type} (x : ExceptT ε (Body σ ω κ) β)
    (k : β → ExceptT ε (Body σ ω κ) γ) (s : σ) :
    (x >>= k).run.read s =
      match x.run.read s with
      | .ok b => (k b).run.read s
      | .error e => .error e := by
  rw [ExceptT.run_bind, read_bind]
  cases x.run.read s <;> rfl

variable [Writable σ ω]

/-- Run a body that started at `s` and wrote `ws` so far, alone. A statement sees the
committed state with the transaction's own writes on top. -/
def run : Body σ ω κ ρ → σ → List ω → ρ × List ω
  | .ret r, _, ws => (r, ws)
  | .stmt effect next, s, ws =>
    (next (applyAll ws s)).run s (ws ++ (effect (applyAll ws s)).writes)

@[simp] theorem run_ret (r : ρ) (s : σ) (ws : List ω) :
    (Body.ret r : Body σ ω κ ρ).run s ws = (r, ws) := rfl

@[simp] theorem run_stmt (effect : σ → Effect ω κ) (next : σ → Body σ ω κ ρ) (s : σ)
    (ws : List ω) : (Body.stmt effect next).run s ws =
      (next (applyAll ws s)).run s (ws ++ (effect (applyAll ws s)).writes) := rfl

@[simp] theorem run_bind (b : Body σ ω κ ρ) (k : ρ → Body σ ω κ τ) (s : σ) (ws : List ω) :
    (b >>= k).run s ws = (k (b.run s ws).1).run s (b.run s ws).2 := by
  induction b generalizing ws with
  | ret r => rfl
  | stmt effect next ih => exact ih _ _

/-- What a body writes comes after what was written before it. -/
theorem run_extends {b : Body σ ω κ ρ} {s : σ} {ws ws' : List ω} {r : ρ}
    (h : b.run s ws = (r, ws')) : ∃ more, ws' = ws ++ more := by
  induction b generalizing ws with
  | ret r => exact ⟨[], by rw [List.append_nil, (Prod.mk.inj h).2]⟩
  | stmt effect next ih =>
    obtain ⟨more, rfl⟩ := ih _ h
    exact ⟨_, List.append_assoc ..⟩

/-- Sequencing with errors: the second body runs when the first returns `ok`. -/
theorem run_bind_except {ε β γ : Type} (x : ExceptT ε (Body σ ω κ) β)
    (k : β → ExceptT ε (Body σ ω κ) γ) (s : σ) (ws : List ω) :
    (x >>= k).run.run s ws =
      match x.run.run s ws with
      | (.ok b, ws') => (k b).run.run s ws'
      | (.error e, ws') => (.error e, ws') := by
  rw [ExceptT.run_bind, run_bind]
  rcases x.run.run s ws with ⟨r, ws'⟩
  cases r <;> rfl

/-- A sequence that returns `ok` has returned `ok` in both parts. -/
theorem ok_of_run_bind {ε β γ : Type} {x : ExceptT ε (Body σ ω κ) β}
    {k : β → ExceptT ε (Body σ ω κ) γ} {s : σ} {ws ws' : List ω} {c : γ}
    (h : (x >>= k).run.run s ws = (.ok c, ws')) :
    ∃ b ws₁, x.run.run s ws = (.ok b, ws₁) ∧ (k b).run.run s ws₁ = (.ok c, ws') := by
  rw [run_bind_except] at h
  rcases hx : x.run.run s ws with ⟨e | b, ws₁⟩
  · rw [hx] at h
    cases h
  · rw [hx] at h
    exact ⟨b, ws₁, rfl, h⟩

/-- A sequence that returns an error has returned it in the first part or in the second. -/
theorem error_of_run_bind {ε β γ : Type} {x : ExceptT ε (Body σ ω κ) β}
    {k : β → ExceptT ε (Body σ ω κ) γ} {s : σ} {ws ws' : List ω} {e : ε}
    (h : (x >>= k).run.run s ws = (.error e, ws')) :
    x.run.run s ws = (.error e, ws') ∨
      ∃ b ws₁, x.run.run s ws = (.ok b, ws₁) ∧ (k b).run.run s ws₁ = (.error e, ws') := by
  rw [run_bind_except] at h
  rcases hx : x.run.run s ws with ⟨e' | b, ws₁⟩
  · rw [hx] at h
    obtain ⟨he, rfl⟩ := Prod.mk.inj h
    rw [Except.error.inj he]
    exact .inl rfl
  · rw [hx] at h
    exact .inr ⟨b, ws₁, rfl, h⟩

/-- The statements of the body only look at what `R`-related states have in common, and what
it returns as `ok` meets `P`. -/
def Respects {ε β : Type} (R : σ → σ → Prop) (P : β → Prop) : Body σ ω κ (Except ε β) → Prop
  | .ret (.ok b) => P b
  | .ret (.error _) => True
  | .stmt effect next =>
    (∀ s s', R s s' → effect s = effect s' ∧ next s = next s') ∧ ∀ s, (next s).Respects R P

namespace Respects

variable {ε β γ : Type} {R : σ → σ → Prop}

omit [Writable σ ω] in
theorem bind {P : γ → Prop} {x : ExceptT ε (Body σ ω κ) β} {k : β → ExceptT ε (Body σ ω κ) γ}
    (h : x.run.Respects R fun b => (k b).run.Respects R P) : (x >>= k).run.Respects R P := by
  have hbind : (x >>= k).run = x.run >>= ExceptT.bindCont k := rfl
  rw [hbind]
  generalize x.run = body at h
  induction body with
  | ret r =>
    cases r with
    | ok b => exact h
    | error e => trivial
  | stmt effect next ih =>
    rw [stmt_bind]
    refine ⟨?_, fun s => ih s (h.2 s)⟩
    intro s s' hR
    obtain ⟨heffect, hnext⟩ := h.1 s s' hR
    exact ⟨heffect, congrArg (· >>= ExceptT.bindCont k) hnext⟩

omit [Writable σ ω] in
theorem mono {P P' : β → Prop} {body : Body σ ω κ (Except ε β)} (hP : ∀ b, P b → P' b)
    (h : body.Respects R P) : body.Respects R P' := by
  induction body with
  | ret r =>
    cases r with
    | ok b => exact hP b h
    | error e => trivial
  | stmt effect next ih => exact ⟨h.1, fun s => ih s (h.2 s)⟩

/-- In related states the body does the same. -/
theorem run_eq {P : β → Prop} {body : Body σ ω κ (Except ε β)} (h : body.Respects R P)
    {s s' : σ} (hR : ∀ ws : List ω, R (applyAll ws s) (applyAll ws s')) (ws : List ω) :
    body.run s ws = body.run s' ws := by
  induction body generalizing ws with
  | ret r => rfl
  | stmt effect next ih =>
    obtain ⟨heffect, hnext⟩ := h.1 _ _ (hR ws)
    rw [run_stmt, run_stmt, heffect, hnext]
    exact ih _ (h.2 _) _

end Respects

end Body

/-! ## A client's whole program -/

inductive Call (σ ω κ α : Type) : Type 1 where
  | ret (a : α)
  | auto (effect : σ → Effect ω κ) (next : σ → Call σ ω κ α)
  | tx {ε β : Type} (body : Body σ ω κ (Except ε β)) (next : Except ε β → Call σ ω κ α)
  | snapshot {ρ : Type} (body : Body σ ω κ ρ) (next : ρ → Call σ ω κ α)

namespace Call

variable {σ ω κ α β : Type}

def bind : Call σ ω κ α → (α → Call σ ω κ β) → Call σ ω κ β
  | .ret a, k => k a
  | .auto effect next, k => .auto effect fun s => (next s).bind k
  | .tx body next, k => .tx body fun r => (next r).bind k
  | .snapshot body next, k => .snapshot body fun r => (next r).bind k

instance : Monad (Call σ ω κ) where
  pure := .ret
  bind := bind

@[simp] theorem ret_bind (a : α) (k : α → Call σ ω κ β) : (Call.ret a >>= k) = k a := rfl

@[simp] theorem auto_bind (effect : σ → Effect ω κ) (next : σ → Call σ ω κ α)
    (k : α → Call σ ω κ β) : (Call.auto effect next >>= k) = .auto effect fun s => next s >>= k :=
  rfl

@[simp] theorem tx_bind {ε γ : Type} (body : Body σ ω κ (Except ε γ))
    (next : Except ε γ → Call σ ω κ α) (k : α → Call σ ω κ β) :
    (Call.tx body next >>= k) = .tx body fun r => next r >>= k := rfl

@[simp] theorem snapshot_bind {ρ : Type} (body : Body σ ω κ ρ) (next : ρ → Call σ ω κ α)
    (k : α → Call σ ω κ β) :
    (Call.snapshot body next >>= k) = .snapshot body fun r => next r >>= k := rfl

theorem pure_eq (a : α) : (pure a : Call σ ω κ α) = .ret a := rfl

theorem id_map (c : Call σ ω κ α) : id <$> c = c := by
  induction c with
  | ret a => rfl
  | auto effect next ih => exact congrArg (Call.auto effect) (funext ih)
  | tx body next ih => exact congrArg (Call.tx body) (funext ih)
  | snapshot body next ih => exact congrArg (Call.snapshot body) (funext ih)

theorem bind_assoc {γ : Type} (c : Call σ ω κ α) (k : α → Call σ ω κ β)
    (k' : β → Call σ ω κ γ) : c >>= k >>= k' = c >>= fun a => k a >>= k' := by
  induction c with
  | ret a => rfl
  | auto effect next ih => exact congrArg (Call.auto effect) (funext ih)
  | tx body next ih => exact congrArg (Call.tx body) (funext ih)
  | snapshot body next ih => exact congrArg (Call.snapshot body) (funext ih)

instance : LawfulMonad (Call σ ω κ) := LawfulMonad.mk' _ id_map (fun _ _ => rfl) bind_assoc

/-- Each statement of the body as a transaction of its own. -/
def autocommit {ρ : Type} : Body σ ω κ ρ → Call σ ω κ ρ
  | .ret r => .ret r
  | .stmt effect next => .auto effect fun s => autocommit (next s)

theorem autocommit_bind {ρ τ : Type} (b : Body σ ω κ ρ) (k : ρ → Body σ ω κ τ) :
    (autocommit (b >>= k) : Call σ ω κ τ) = autocommit b >>= fun r => autocommit (k r) := by
  induction b with
  | ret r => rfl
  | stmt effect next ih => exact congrArg (Call.auto effect) (funext ih)

variable [Writable σ ω]

/-- Run a call alone, to its end. A read-only transaction leaves the state as it is. -/
def run : Call σ ω κ α → σ → α × σ
  | .ret a, s => (a, s)
  | .auto effect next, s => (next s).run (applyAll (effect s).writes s)
  | .tx body next, s =>
    match body.run s [] with
    | (.ok b, ws) => (next (.ok b)).run (applyAll ws s)
    | (.error e, _) => (next (.error e)).run s
  | .snapshot body next, s => (next (body.read s)).run s

theorem run_bind (c : Call σ ω κ α) (k : α → Call σ ω κ β) (s : σ) :
    (c >>= k).run s = (k (c.run s).1).run (c.run s).2 := by
  induction c generalizing s with
  | ret a => rfl
  | auto effect next ih => exact ih _ _
  | tx body next ih =>
    simp only [tx_bind, run]
    split
    · exact ih _ _
    · exact ih _ _
  | snapshot body next ih => exact ih _ _

theorem run_map (f : α → β) (c : Call σ ω κ α) (s : σ) :
    (f <$> c).run s = (f (c.run s).1, (c.run s).2) := by
  show (c >>= fun a => .ret (f a)).run s = _
  rw [run_bind]
  rfl

end Call

end Interbellum.Txn
