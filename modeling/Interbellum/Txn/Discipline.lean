import Interbellum.Txn.Interleaving

/-!
# Locking disciplines

A `Discipline` says what clients rely on: an invariant of the committed states, how one
committed state may evolve into a later one, and what stays as it is while a lock is held.
A client that keeps to it

* only goes on from statements whose outcome the locks it then holds protect (or fails at
  once), and
* commits writes that keep the invariant, let the state evolve, and leave alone what any
  compatible lock protects.

`Body.Keeps` and `Call.Keeps` state this by recursion on the program, so that it is checked
statement by statement against a single state. They carry the answers the client can get.
-/

namespace Interbellum.Txn

variable {σ ω κ ε α β γ : Type}

structure Discipline (σ κ : Type) where
  Inv : σ → Prop
  Evolves : σ → σ → Prop
  /-- What a holder of the lock can rely on between two states. -/
  Held : κ × LockMode → σ → σ → Prop
  refl : ∀ s, Evolves s s
  trans : ∀ {s s' s''}, Evolves s s' → Evolves s' s'' → Evolves s s''

/-- What can have become of `s` while locks `ls` were held. -/
structure Discipline.Rely (D : Discipline σ κ) (ls : Locks κ) (s s' : σ) : Prop where
  inv : D.Inv s'
  evolves : D.Evolves s s'
  held : ∀ l ∈ ls, D.Held l s s'

theorem Discipline.Rely.mono {D : Discipline σ κ} {ls ls' : Locks κ} {s s' : σ}
    (h : D.Rely ls s s') (hls : ∀ l ∈ ls', l ∈ ls) : D.Rely ls' s s' :=
  ⟨h.inv, h.evolves, fun l hl => h.held l (hls l hl)⟩

variable [Writable σ ω]

/-- What must hold to commit `ws` to `s` under the locks `ls`; `G` is a guarantee of the
client beyond the discipline. -/
structure Discipline.Commits (D : Discipline σ κ) (G : σ → σ → Prop) (s : σ) (ws : List ω)
    (ls : Locks κ) : Prop where
  inv : D.Inv (applyAll ws s)
  evolves : D.Evolves s (applyAll ws s)
  guarantee : G s (applyAll ws s)
  others : ∀ ls', Compatible ls ls' → ∀ l ∈ ls', D.Held l s (applyAll ws s)

/-- From `s`, having written `ws` under `ls`, the body keeps to the discipline until it
returns. It then returns `ok` in a way that meets `Q`, or an error that meets `E`. -/
def Body.Keeps (D : Discipline σ κ) (s : σ) (Q : β → List ω → Locks κ → Prop) (E : ε → Prop) :
    Body σ ω κ (Except ε β) → List ω → Locks κ → Prop
  | .ret (.ok b), ws, ls => Q b ws ls
  | .ret (.error e), _, _ => E e
  | .stmt effect next, ws, ls =>
    (∃ e, next (applyAll ws s) = .ret (.error e) ∧ E e) ∨
    ((∀ s', D.Rely (ls ++ (effect (applyAll ws s)).locks) s s' →
        effect (applyAll ws s') = effect (applyAll ws s) ∧
          next (applyAll ws s') = next (applyAll ws s)) ∧
      Body.Keeps D s Q E (next (applyAll ws s)) (ws ++ (effect (applyAll ws s)).writes)
        (ls ++ (effect (applyAll ws s)).locks))

/-- From any state that `s` may evolve into, the call keeps to the discipline, and what it
finally answers meets `Q` in every later state. -/
def Call.Keeps (D : Discipline σ κ) (G : σ → σ → Prop) (Q : α → σ → Prop) :
    Call σ ω κ α → σ → Prop
  | .ret a, s => ∀ s', D.Inv s' → D.Evolves s s' → Q a s'
  | .auto effect next, s => ∀ s', D.Inv s' → D.Evolves s s' →
      D.Commits G s' (effect s').writes (effect s').locks ∧
        Call.Keeps D G Q (next s') (applyAll (effect s').writes s')
  | .tx body next, s => ∀ s', D.Inv s' → D.Evolves s s' →
      body.Keeps D s'
        (fun b ws ls => D.Commits G s' ws ls ∧ Call.Keeps D G Q (next (.ok b)) (applyAll ws s'))
        (fun e => Call.Keeps D G Q (next (.error e)) s') [] []
  | .snapshot body next, s => ∀ s', D.Inv s' → D.Evolves s s' →
      Call.Keeps D G Q (next (body.read s')) s'

/-! ## Rules -/

section

variable {D : Discipline σ κ} {G : σ → σ → Prop} {s : σ}

theorem Body.Keeps.mono {Q Q' : β → List ω → Locks κ → Prop} {E E' : ε → Prop}
    (hQ : ∀ b ws ls, Q b ws ls → Q' b ws ls) (hE : ∀ e, E e → E' e)
    {body : Body σ ω κ (Except ε β)} {ws : List ω} {ls : Locks κ}
    (h : body.Keeps D s Q E ws ls) : body.Keeps D s Q' E' ws ls := by
  induction body generalizing ws ls with
  | ret r =>
    cases r with
    | ok b => exact hQ _ _ _ h
    | error e => exact hE _ h
  | stmt effect next ih =>
    rcases h with ⟨e, hnext, he⟩ | ⟨hsteady, hrest⟩
    · exact .inl ⟨e, hnext, hE e he⟩
    · exact .inr ⟨hsteady, ih _ hrest⟩

/-- The rule for sequencing: an error of the first body ends the second one too. -/
theorem Body.Keeps.bind {Q : γ → List ω → Locks κ → Prop} {E : ε → Prop}
    {x : ExceptT ε (Body σ ω κ) β} {k : β → ExceptT ε (Body σ ω κ) γ} {ws : List ω}
    {ls : Locks κ}
    (h : x.run.Keeps D s (fun b ws ls => (k b).run.Keeps D s Q E ws ls) E ws ls) :
    (x >>= k).run.Keeps D s Q E ws ls := by
  have hbind : (x >>= k).run = x.run >>= ExceptT.bindCont k := rfl
  rw [hbind]
  generalize x.run = body at h
  induction body generalizing ws ls with
  | ret r =>
    cases r with
    | ok b => exact h
    | error e => exact h
  | stmt effect next ih =>
    rw [stmt_bind]
    rcases h with ⟨e, hnext, he⟩ | ⟨hsteady, hrest⟩
    · exact .inl ⟨e, congrArg (· >>= ExceptT.bindCont k) hnext, he⟩
    · refine .inr ⟨?_, ih _ hrest⟩
      intro s' hrely
      obtain ⟨heffect, hnext⟩ := hsteady s' hrely
      exact ⟨heffect, congrArg (· >>= ExceptT.bindCont k) hnext⟩

theorem Body.Keeps.pure {Q : β → List ω → Locks κ → Prop} {E : ε → Prop} {b : β} {ws : List ω}
    {ls : Locks κ} (h : Q b ws ls) :
    (Pure.pure b : ExceptT ε (Body σ ω κ) β).run.Keeps D s Q E ws ls := h

theorem Body.Keeps.throw {Q : β → List ω → Locks κ → Prop} {E : ε → Prop} {e : ε} {ws : List ω}
    {ls : Locks κ} (h : E e) :
    (MonadExcept.throw e : ExceptT ε (Body σ ω κ) β).run.Keeps D s Q E ws ls := h

/-- What a body that keeps to the discipline returns when it runs alone. -/
theorem Body.Keeps.run {Q : β → List ω → Locks κ → Prop} {E : ε → Prop}
    {body : Body σ ω κ (Except ε β)} {ws : List ω} {ls : Locks κ}
    (h : body.Keeps D s Q E ws ls) :
    match body.run s ws with
    | (.ok b, ws') => ∃ ls', Q b ws' ls'
    | (.error e, _) => E e := by
  induction body generalizing ws ls with
  | ret r =>
    cases r with
    | ok b => exact ⟨ls, h⟩
    | error e => exact h
  | stmt effect next ih =>
    rw [run_stmt]
    rcases h with ⟨e, hnext, he⟩ | ⟨-, hrest⟩
    · rw [hnext, run_ret]
      exact he
    · exact ih _ hrest

/-- What was shown of a body, together with what it does when it runs alone. -/
theorem Body.Keeps.and_run {Q : β → List ω → Locks κ → Prop} {E : ε → Prop}
    {body : Body σ ω κ (Except ε β)} {ws : List ω} {ls : Locks κ}
    (h : body.Keeps D s Q E ws ls) :
    body.Keeps D s (fun b ws' ls' => Q b ws' ls' ∧ body.run s ws = (.ok b, ws'))
      (fun e => E e ∧ (body.run s ws).1 = .error e) ws ls := by
  induction body generalizing ws ls with
  | ret r =>
    cases r with
    | ok b => exact ⟨h, rfl⟩
    | error e => exact ⟨h, rfl⟩
  | stmt effect next ih =>
    rw [run_stmt]
    rcases h with ⟨e, hnext, he⟩ | ⟨hsteady, hrest⟩
    · refine .inl ⟨e, hnext, he, ?_⟩
      rw [hnext, run_ret]
    · exact .inr ⟨hsteady, ih _ hrest⟩

variable {Q : α → σ → Prop}

theorem Call.Keeps.later {c : Call σ ω κ α} {s' : σ} (h : c.Keeps D G Q s)
    (hevolves : D.Evolves s s') : c.Keeps D G Q s' := by
  cases c with
  | ret a => exact fun t ht het => h t ht (D.trans hevolves het)
  | auto effect next => exact fun t ht het => h t ht (D.trans hevolves het)
  | tx body next => exact fun t ht het => h t ht (D.trans hevolves het)
  | snapshot body next => exact fun t ht het => h t ht (D.trans hevolves het)

theorem Call.Keeps.mono {G' : σ → σ → Prop} {Q' : α → σ → Prop} {c : Call σ ω κ α}
    (hG : ∀ s s', G s s' → G' s s') (hQ : ∀ a s, Q a s → Q' a s) (h : c.Keeps D G Q s) :
    c.Keeps D G' Q' s := by
  induction c generalizing s with
  | ret a => exact fun t ht het => hQ _ _ (h t ht het)
  | auto effect next ih =>
    intro t ht het
    obtain ⟨hcommits, hrest⟩ := h t ht het
    exact ⟨⟨hcommits.inv, hcommits.evolves, hG _ _ hcommits.guarantee, hcommits.others⟩,
      ih _ hrest⟩
  | tx body next ih =>
    intro t ht het
    refine (h t ht het).mono ?_ (fun e he => ih _ he)
    rintro b ws ls ⟨hcommits, hrest⟩
    exact ⟨⟨hcommits.inv, hcommits.evolves, hG _ _ hcommits.guarantee, hcommits.others⟩,
      ih _ hrest⟩
  | snapshot body next ih => exact fun t ht het => ih _ (h t ht het)

/-- A call answers in a state that the one it started from has evolved into. -/
theorem Call.Keeps.reached {c : Call σ ω κ α} (h : c.Keeps D G Q s) :
    c.Keeps D G (fun a t => D.Inv t ∧ D.Evolves s t ∧ Q a t) s := by
  suffices hfrom : ∀ {t : σ}, D.Evolves s t → c.Keeps D G Q t →
      c.Keeps D G (fun a t => D.Inv t ∧ D.Evolves s t ∧ Q a t) t from hfrom (D.refl s) h
  clear h
  induction c with
  | ret a => exact fun hst h t ht het => ⟨ht, D.trans hst het, h t ht het⟩
  | auto effect next ih =>
    intro u hst h t ht het
    obtain ⟨hcommits, hrest⟩ := h t ht het
    exact ⟨hcommits, ih _ (D.trans (D.trans hst het) hcommits.evolves) hrest⟩
  | tx body next ih =>
    intro u hst h t ht het
    refine (h t ht het).mono ?_ (fun e he => ih _ (D.trans hst het) he)
    rintro b ws ls ⟨hcommits, hrest⟩
    exact ⟨hcommits, ih _ (D.trans (D.trans hst het) hcommits.evolves) hrest⟩
  | snapshot body next ih =>
    intro u hst h t ht het
    exact ih _ (D.trans hst het) (h t ht het)

/-- What was shown of a call holds in particular when it runs alone. -/
theorem Call.Keeps.run {c : Call σ ω κ α} (h : c.Keeps D G Q s) (hinv : D.Inv s) :
    D.Inv (c.run s).2 ∧ D.Evolves s (c.run s).2 ∧ Q (c.run s).1 (c.run s).2 := by
  induction c generalizing s with
  | ret a => exact ⟨hinv, D.refl s, h s hinv (D.refl s)⟩
  | auto effect next ih =>
    obtain ⟨hcommits, hrest⟩ := h s hinv (D.refl s)
    obtain ⟨hinv', hevolves, hQ⟩ := ih s hrest hcommits.inv
    exact ⟨hinv', D.trans hcommits.evolves hevolves, hQ⟩
  | tx body next ih =>
    have hbody := (h s hinv (D.refl s)).run
    simp only [Call.run]
    cases hr : body.run s [] with
    | mk r ws =>
      rw [hr] at hbody
      cases r with
      | ok b =>
        obtain ⟨ls, hcommits, hrest⟩ := hbody
        obtain ⟨hinv', hevolves, hQ⟩ := ih (.ok b) hrest hcommits.inv
        exact ⟨hinv', D.trans hcommits.evolves hevolves, hQ⟩
      | error e => exact ih (.error e) hbody hinv
  | snapshot body next ih => exact ih _ (h s hinv (D.refl s)) hinv

/-- The guarantee of a client, over its whole call. -/
theorem Call.Keeps.run_guarantee {c : Call σ ω κ α} (h : c.Keeps D G Q s) (hinv : D.Inv s)
    (hrefl : ∀ t, G t t) (htrans : ∀ t u v, G t u → G u v → G t v) : G s (c.run s).2 := by
  induction c generalizing s with
  | ret a => exact hrefl s
  | auto effect next ih =>
    obtain ⟨hcommits, hrest⟩ := h s hinv (D.refl s)
    exact htrans _ _ _ hcommits.guarantee (ih s hrest hcommits.inv)
  | tx body next ih =>
    have hbody := (h s hinv (D.refl s)).run
    simp only [Call.run]
    cases hr : body.run s [] with
    | mk r ws =>
      rw [hr] at hbody
      cases r with
      | ok b =>
        obtain ⟨ls, hcommits, hrest⟩ := hbody
        exact htrans _ _ _ hcommits.guarantee (ih (.ok b) hrest hcommits.inv)
      | error e => exact ih (.error e) hbody hinv
  | snapshot body next ih => exact ih _ (h s hinv (D.refl s)) hinv

theorem Call.Keeps.bind {Q : β → σ → Prop} {c : Call σ ω κ α} {k : α → Call σ ω κ β}
    (h : c.Keeps D G (fun a s => (k a).Keeps D G Q s) s) (hinv : D.Inv s) :
    (c >>= k).Keeps D G Q s := by
  induction c generalizing s with
  | ret a => exact h s hinv (D.refl s)
  | auto effect next ih =>
    intro t ht het
    obtain ⟨hcommits, hrest⟩ := h t ht het
    exact ⟨hcommits, ih _ hrest hcommits.inv⟩
  | tx body next ih =>
    intro t ht het
    refine (h t ht het).mono ?_ (fun e he => ih _ he ht)
    rintro b ws ls ⟨hcommits, hrest⟩
    exact ⟨hcommits, ih _ hrest hcommits.inv⟩
  | snapshot body next ih => exact fun t ht het => ih _ (h t ht het) ht

theorem Call.Keeps.map {Q : β → σ → Prop} {f : α → β} {c : Call σ ω κ α}
    (h : c.Keeps D G (fun a => Q (f a)) s) : (f <$> c).Keeps D G Q s := by
  induction c generalizing s with
  | ret a => exact h
  | auto effect next ih =>
    intro t ht het
    obtain ⟨hcommits, hrest⟩ := h t ht het
    exact ⟨hcommits, ih _ hrest⟩
  | tx body next ih =>
    intro t ht het
    refine (h t ht het).mono ?_ (fun e he => ih _ he)
    rintro b ws ls ⟨hcommits, hrest⟩
    exact ⟨hcommits, ih _ hrest⟩
  | snapshot body next ih => exact fun t ht het => ih _ (h t ht het)

/-- The rule for sequencing with errors. -/
theorem Call.Keeps.bind_except {P : Except ε β → σ → Prop} {Q : Except ε γ → σ → Prop}
    {x : ExceptT ε (Call σ ω κ) β} {k : β → ExceptT ε (Call σ ω κ) γ} (hinv : D.Inv s)
    (h : x.run.Keeps D G P s)
    (hok : ∀ b t, D.Inv t → D.Evolves s t → P (.ok b) t → (k b).run.Keeps D G Q t)
    (herror : ∀ e t, P (.error e) t → ∀ u, D.Inv u → D.Evolves t u → Q (.error e) u) :
    (x >>= k).run.Keeps D G Q s := by
  have hbind : (x >>= k).run = x.run >>= ExceptT.bindCont k := rfl
  rw [hbind]
  refine Call.Keeps.bind (h.reached.mono (fun _ _ hG => hG) ?_) hinv
  rintro r t ⟨ht, het, hP⟩
  cases r with
  | ok b => exact hok b t ht het hP
  | error e => exact herror e t hP

end

end Interbellum.Txn
