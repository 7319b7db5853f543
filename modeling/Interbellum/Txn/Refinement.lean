import Interbellum.Txn.Discipline

/-!
# Disciplined transactions are atomic

`Call.act` runs the next transaction of a call in one piece. A system of clients that keep
to a discipline refines the one in which each client moves by `Call.act` only: a transaction
takes effect at its commit, a failing one at the statement that fails, a snapshot at its
first statement. The reason is that the state of an open transaction is, at every moment,
the one it would have reached if it had started from what is committed now.

* `Linked.step`: one step of the interleaved system is no step or one step of `Call.act`.
* `Linked.run`: the link is kept over whole runs, and the committed state evolves.
* `Linked.answer`: a session answers what was shown of its call.
* `Linked.acts`: a session that has moved on took effect at one of its steps.
-/

namespace Interbellum.Txn

variable {ι σ ω κ α : Type} [Writable σ ω]

/-- The next transaction or statement of a call, in one piece. -/
def Call.act : Call σ ω κ α → σ → Option (Call σ ω κ α × σ)
  | .ret _, _ => none
  | .auto effect next, s => some (next s, applyAll (effect s).writes s)
  | .tx body next, s =>
    match body.run s [] with
    | (.ok b, ws) => some (next (.ok b), applyAll ws s)
    | (.error e, _) => some (next (.error e), s)
  | .snapshot body next, s => some (next (body.read s), s)

theorem Call.run_of_act {c c' : Call σ ω κ α} {s s' : σ} (h : c.act s = some (c', s')) :
    c.run s = c'.run s' := by
  cases c with
  | ret a => simp [act] at h
  | auto effect next =>
    obtain ⟨rfl, rfl⟩ : _ ∧ _ := by simpa [act] using h
    rfl
  | tx body next =>
    simp only [act] at h
    simp only [run]
    cases hr : body.run s [] with
    | mk r ws =>
      rw [hr] at h
      cases r with
      | ok b =>
        obtain ⟨rfl, rfl⟩ : _ ∧ _ := by simpa using h
        rfl
      | error e =>
        obtain ⟨rfl, rfl⟩ : _ ∧ _ := by simpa using h
        rfl
  | snapshot body next =>
    obtain ⟨rfl, rfl⟩ : _ ∧ _ := by simpa [act] using h
    rfl

/-- The call answers after one transaction or statement, if not at once. -/
def Call.Single (c : Call σ ω κ α) : Prop :=
  ∀ s c' s', c.act s = some (c', s') → ∃ a, c' = .ret a

/-- What a call of one transaction answers when it runs alone, it answers always. -/
theorem Call.Keeps.of_run {D : Discipline σ κ} {G : σ → σ → Prop} {Q : α → σ → Prop}
    {P : α → Prop} {c : Call σ ω κ α} {s : σ} (h : c.Keeps D G Q s) (hsingle : c.Single)
    (hP : ∀ t, D.Inv t → D.Evolves s t → P (c.run t).1) : c.Keeps D G (fun a _ => P a) s := by
  have hanswer : ∀ t c' t', D.Inv t → D.Evolves s t → c.act t = some (c', t') →
      ∀ u, c'.Keeps D G (fun a _ => P a) u := by
    intro t c' t' ht het hact
    obtain ⟨a, rfl⟩ := hsingle t c' t' hact
    have ha := hP t ht het
    rw [run_of_act hact] at ha
    exact fun _ _ _ _ => ha
  cases c with
  | ret a => exact fun t ht het => hP t ht het
  | auto effect next =>
    exact fun t ht het => ⟨(h t ht het).1, hanswer t _ _ ht het rfl _⟩
  | tx body next =>
    intro t ht het
    refine (h t ht het).and_run.mono ?_ ?_
    · rintro b ws ls ⟨⟨hcommits, -⟩, hrun⟩
      refine ⟨hcommits, hanswer t _ (applyAll ws t) ht het ?_ _⟩
      rw [act, hrun]
    · rintro e ⟨-, hrun⟩
      refine hanswer t _ t ht het ?_ _
      rw [act]
      rcases hbody : body.run t [] with ⟨r, ws⟩
      rw [hbody] at hrun
      obtain rfl : r = .error e := hrun
      rfl
  | snapshot body next => exact fun t ht het => hanswer t _ _ ht het rfl _

/-! ## Open transactions -/

section

variable {ε β : Type}

/-- Started at `s`, the first body gets to the second one without an error. -/
inductive Body.Reaches (s : σ) : Body σ ω κ (Except ε β) → List ω → Locks κ →
    Body σ ω κ (Except ε β) → List ω → Locks κ → Prop
  | refl (body : Body σ ω κ (Except ε β)) (ws : List ω) (ls : Locks κ) :
      Reaches s body ws ls body ws ls
  | step {effect : σ → Effect ω κ} {next : σ → Body σ ω κ (Except ε β)} {ws ws' : List ω}
      {ls ls' : Locks κ} {rest : Body σ ω κ (Except ε β)}
      (hlive : ∀ e, next (applyAll ws s) ≠ .ret (.error e))
      (h : Reaches s (next (applyAll ws s)) (ws ++ (effect (applyAll ws s)).writes)
        (ls ++ (effect (applyAll ws s)).locks) rest ws' ls') :
      Reaches s (.stmt effect next) ws ls rest ws' ls'

namespace Body.Reaches

variable {s : σ} {body rest : Body σ ω κ (Except ε β)} {ws ws' : List ω} {ls ls' : Locks κ}

theorem run_eq (h : Reaches s body ws ls rest ws' ls') : body.run s ws = rest.run s ws' := by
  induction h with
  | refl => rfl
  | step _ _ ih => exact ih

theorem locks_subset (h : Reaches s body ws ls rest ws' ls') : ∀ l ∈ ls, l ∈ ls' := by
  induction h with
  | refl => exact fun _ hl => hl
  | step _ _ ih => exact fun l hl => ih l (List.mem_append_left _ hl)

theorem snoc {effect : σ → Effect ω κ} {next : σ → Body σ ω κ (Except ε β)}
    (h : Reaches s body ws ls (.stmt effect next) ws' ls')
    (hlive : ∀ e, next (applyAll ws' s) ≠ .ret (.error e)) :
    Reaches s body ws ls (next (applyAll ws' s)) (ws' ++ (effect (applyAll ws' s)).writes)
      (ls' ++ (effect (applyAll ws' s)).locks) := by
  generalize hrest : Body.stmt effect next = rest at h
  induction h with
  | refl =>
    subst hrest
    exact .step hlive (.refl _ _ _)
  | step hlive' _ ih => exact .step hlive' (ih hlive hrest)

/-- Only a body that fails at once gets to an error. -/
theorem of_error {e : ε} (h : Reaches s body ws ls (.ret (.error e)) ws' ls') :
    body = .ret (.error e) := by
  generalize hrest : (Body.ret (.error e) : Body σ ω κ (Except ε β)) = final at h
  induction h with
  | refl => rfl
  | step hlive _ ih => exact absurd ((ih hrest).trans hrest.symm) (hlive e)

variable {D : Discipline σ κ} {Q : β → List ω → Locks κ → Prop} {E : ε → Prop}

theorem keeps (h : Reaches s body ws ls rest ws' ls') (hkeeps : body.Keeps D s Q E ws ls) :
    rest.Keeps D s Q E ws' ls' := by
  induction h with
  | refl => exact hkeeps
  | step hlive _ ih =>
    rcases hkeeps with ⟨e, hnext, -⟩ | ⟨-, hrest⟩
    · exact absurd hnext (hlive e)
    · exact ih hrest

/-- The locks protect what an open transaction has done: it could have done the same from
any state they admit. -/
theorem transfer {s' : σ} (h : Reaches s body ws ls rest ws' ls')
    (hkeeps : body.Keeps D s Q E ws ls) (hrely : D.Rely ls' s s') :
    Reaches s' body ws ls rest ws' ls' := by
  induction h with
  | refl => exact .refl _ _ _
  | step hlive hrest ih =>
    rcases hkeeps with ⟨e, hnext, -⟩ | ⟨hsteady, hkeeps⟩
    · exact absurd hnext (hlive e)
    · obtain ⟨heffect, hnext⟩ := hsteady s' (hrely.mono hrest.locks_subset)
      have hstep := ih hkeeps hrely
      rw [← heffect, ← hnext] at hstep
      exact .step (by rwa [hnext]) hstep

end Body.Reaches

end

/-! ## The simulation -/

/-- How a session stands to the call that moves in whole transactions. -/
def Session.Sim (s : σ) : Session σ ω κ α → Call σ ω κ α → Prop
  | .idle c, c' => c' = c
  | .busy rest next ws ls, c' =>
    (∃ body, c' = .tx body next ∧ body.Reaches s [] [] rest ws ls) ∨
      ∃ e, rest = .ret (.error e) ∧ c' = next (.error e)
  | .reading rest next none, c' => c' = .snapshot rest next
  | .reading rest next (some pinned), c' => c' = next (rest.read pinned)
  | .dead, _ => True

theorem Session.Sim.transfer {D : Discipline σ κ} {G : σ → σ → Prop} {Q : α → σ → Prop}
    {s s' : σ} {session : Session σ ω κ α} {c : Call σ ω κ α} (h : session.Sim s c)
    (hkeeps : c.Keeps D G Q s) (hinv : D.Inv s) (hrely : D.Rely session.locks s s') :
    session.Sim s' c := by
  cases session with
  | idle call => exact h
  | busy rest next ws ls =>
    rcases h with ⟨body, rfl, hreaches⟩ | herror
    · exact .inl ⟨body, rfl, hreaches.transfer (hkeeps s hinv (D.refl s)) hrely⟩
    · exact .inr herror
  | reading rest next pinned =>
    cases pinned with
    | none => exact h
    | some pinned => exact h
  | dead => exact h

/-- The system, next to the calls that move in whole transactions. -/
structure Linked (D : Discipline σ κ) (G : ι → σ → σ → Prop) (Q : ι → α → σ → Prop)
    (sys : System ι σ ω κ α) (calls : ι → Call σ ω κ α) : Prop where
  inv : D.Inv sys.store
  exclusive : ∀ i j, i ≠ j → Compatible (sys.session i).locks (sys.session j).locks
  keeps : ∀ i, (calls i).Keeps D (G i) (Q i) sys.store
  sim : ∀ i, (sys.session i).Sim sys.store (calls i)

theorem linked_init {D : Discipline σ κ} {G : ι → σ → σ → Prop} {Q : ι → α → σ → Prop} {s : σ}
    {calls : ι → Call σ ω κ α} (hinv : D.Inv s) (hkeeps : ∀ i, (calls i).Keeps D (G i) (Q i) s) :
    Linked D G Q ⟨s, fun i => .idle (calls i)⟩ calls :=
  ⟨hinv, fun _ _ _ => compatible_nil_left _, hkeeps, fun _ => rfl⟩

namespace Linked

variable [DecidableEq ι] {D : Discipline σ κ} {G : ι → σ → σ → Prop} {Q : ι → α → σ → Prop}
  {sys : System ι σ ω κ α} {calls : ι → Call σ ω κ α} {i : ι}

/-- Session `i` moves while the committed state stays. -/
theorem set (h : Linked D G Q sys calls) {a : Session σ ω κ α} {c : Call σ ω κ α}
    (hlocks : ∀ j, j ≠ i → Compatible a.locks (sys.session j).locks)
    (hkeeps : c.Keeps D (G i) (Q i) sys.store) (hsim : a.Sim sys.store c) :
    Linked D G Q (sys.set i a) (Function.update calls i c) := by
  refine ⟨h.inv, ?_, ?_, ?_⟩
  · intro j k hjk
    by_cases hj : j = i
    · subst hj
      rw [System.set_self, System.set_of_ne _ _ hjk.symm]
      exact hlocks k hjk.symm
    · rw [System.set_of_ne _ _ hj]
      by_cases hk : k = i
      · subst hk
        rw [System.set_self]
        exact (hlocks j hj).symm
      · rw [System.set_of_ne _ _ hk]
        exact h.exclusive j k hjk
  · intro j
    by_cases hj : j = i
    · subst hj
      rwa [Function.update_self]
    · rw [Function.update_of_ne hj]
      exact h.keeps j
  · intro j
    by_cases hj : j = i
    · subst hj
      rwa [System.set_self, Function.update_self]
    · rw [System.set_of_ne _ _ hj, Function.update_of_ne hj]
      exact h.sim j

/-- Session `i` moves and keeps its call. -/
theorem stay (h : Linked D G Q sys calls) {a : Session σ ω κ α}
    (hlocks : ∀ j, j ≠ i → Compatible a.locks (sys.session j).locks)
    (hsim : a.Sim sys.store (calls i)) : Linked D G Q (sys.set i a) calls := by
  have hset := h.set hlocks (h.keeps i) hsim
  rwa [Function.update_eq_self] at hset

omit [DecidableEq ι] in
/-- The committed state evolves under the feet of all sessions. -/
theorem evolve (h : Linked D G Q sys calls) {s : σ} (hinv : D.Inv s)
    (hevolves : D.Evolves sys.store s)
    (hheld : ∀ j, ∀ l ∈ (sys.session j).locks, D.Held l sys.store s) :
    Linked D G Q { sys with store := s } calls :=
  ⟨hinv, h.exclusive, fun j => (h.keeps j).later hevolves,
    fun j => (h.sim j).transfer (h.keeps j) h.inv ⟨hinv, hevolves, hheld j⟩⟩

/-- Session `i`, whose locks are `ls`, commits and lets go of them. -/
theorem put (h : Linked D G Q sys calls) {ws : List ω} {ls : Locks κ} {c : Call σ ω κ α}
    (hcommits : D.Commits (G i) sys.store ws ls)
    (hlocks : ∀ j, j ≠ i → Compatible ls (sys.session j).locks)
    (hkeeps : c.Keeps D (G i) (Q i) (applyAll ws sys.store)) :
    Linked D G Q (sys.put i (.idle c) (applyAll ws sys.store)) (Function.update calls i c) := by
  -- first let go of the locks, then let the state evolve, then move on to the new call
  have hdead : Linked D G Q (sys.set i .dead) calls :=
    h.stay (fun _ _ => compatible_nil_left _) trivial
  have hevolved := hdead.evolve hcommits.inv hcommits.evolves (by
    intro j l hl
    by_cases hj : j = i
    · subst hj
      simp [Session.locks] at hl
    · rw [System.set_of_ne _ _ hj] at hl
      exact hcommits.others _ (hlocks j hj) l hl)
  have hmoved := hevolved.set (i := i) (a := .idle c) (fun _ _ => compatible_nil_left _) hkeeps rfl
  have he : System.set { sys.set i .dead with store := applyAll ws sys.store } i (.idle c) =
      sys.put i (.idle c) (applyAll ws sys.store) := System.put_set sys i .dead (.idle c) _
  rwa [he] at hmoved

/-- The step of the calls that a step of session `i` stands for. -/
def Moves (G : σ → σ → Prop) (i : ι) (s : σ) (calls : ι → Call σ ω κ α) (s' : σ)
    (calls' : ι → Call σ ω κ α) : Prop :=
  s' = s ∧ calls' = calls ∨
    ∃ c, (calls i).act s = some (c, s') ∧ calls' = Function.update calls i c ∧ (s' = s ∨ G s s')

theorem begin_body {ε β : Type} {body : Body σ ω κ (Except ε β)}
    {next : Except ε β → Call σ ω κ α} (h : Linked D G Q sys calls)
    (hs : sys.session i = .idle (.tx body next)) :
    Linked D G Q (sys.set i (.busy body next [] [])) calls := by
  have hsim := h.sim i
  rw [hs] at hsim
  exact h.stay (fun _ _ => compatible_nil_left _) (.inl ⟨body, hsim, .refl _ _ _⟩)

/-- A transaction that fails does so, for the calls, at the statement that fails. -/
theorem statement {ε β : Type} {effect : σ → Effect ω κ}
    {rest : σ → Body σ ω κ (Except ε β)} {next : Except ε β → Call σ ω κ α}
    {ws : List ω} {ls : Locks κ} (h : Linked D G Q sys calls)
    (hs : sys.session i = .busy (.stmt effect rest) next ws ls)
    (hgrants : sys.Grants i (effect (applyAll ws sys.store)).locks) :
    ∃ calls', Linked D G Q (sys.set i (.busy (rest (applyAll ws sys.store)) next
        (ws ++ (effect (applyAll ws sys.store)).writes)
        (ls ++ (effect (applyAll ws sys.store)).locks))) calls' ∧
      Moves (G i) i sys.store calls sys.store calls' := by
  have hsim := h.sim i
  have hkeeps := h.keeps i
  have hlocks : ∀ j, j ≠ i → Compatible (ls ++ (effect (applyAll ws sys.store)).locks)
      (sys.session j).locks := by
    intro j hj
    have hexclusive := h.exclusive i j hj.symm
    rw [hs] at hexclusive
    exact compatible_append_left.mpr ⟨hexclusive, hgrants j hj⟩
  rw [hs] at hsim
  rcases hsim with ⟨body, hcall, hreaches⟩ | ⟨e, hret, -⟩
  · by_cases hfail : ∃ e, rest (applyAll ws sys.store) = .ret (.error e)
    · obtain ⟨e, he⟩ := hfail
      rw [hcall] at hkeeps
      have hrun : ∃ ws', body.run sys.store [] = (.error e, ws') := by
        rw [hreaches.run_eq, Body.run_stmt, he, Body.run_ret]
        exact ⟨_, rfl⟩
      obtain ⟨ws', hrun⟩ := hrun
      have hnext : (next (.error e)).Keeps D (G i) (Q i) sys.store := by
        have hbody := (hkeeps sys.store h.inv (D.refl _)).run
        rwa [hrun] at hbody
      refine ⟨_, h.set hlocks hnext (.inr ⟨e, he, rfl⟩), .inr ⟨_, ?_, rfl, .inl rfl⟩⟩
      simp [hcall, Call.act, hrun]
    · refine ⟨calls, h.stay hlocks ?_, .inl ⟨rfl, rfl⟩⟩
      exact .inl ⟨body, hcall, hreaches.snoc (not_exists.mp hfail)⟩
  · cases hret

theorem commit {ε β : Type} {b : β} {next : Except ε β → Call σ ω κ α} {ws : List ω}
    {ls : Locks κ} (h : Linked D G Q sys calls)
    (hs : sys.session i = .busy (.ret (.ok b)) next ws ls) :
    ∃ calls', Linked D G Q (sys.put i (.idle (next (.ok b))) (applyAll ws sys.store)) calls' ∧
      D.Evolves sys.store (applyAll ws sys.store) ∧
      Moves (G i) i sys.store calls (applyAll ws sys.store) calls' := by
  have hsim := h.sim i
  have hkeeps := h.keeps i
  rw [hs] at hsim
  rcases hsim with ⟨body, hcall, hreaches⟩ | ⟨e, hret, -⟩
  · rw [hcall] at hkeeps
    obtain ⟨hcommits, hnext⟩ := hreaches.keeps (hkeeps sys.store h.inv (D.refl _))
    have hlocks : ∀ j, j ≠ i → Compatible ls (sys.session j).locks := by
      intro j hj
      have hexclusive := h.exclusive i j hj.symm
      rwa [hs] at hexclusive
    refine ⟨_, h.put hcommits hlocks hnext, hcommits.evolves,
      .inr ⟨_, ?_, rfl, .inr hcommits.guarantee⟩⟩
    simp [hcall, Call.act, hreaches.run_eq]
  · cases hret

theorem rollback {ε β : Type} {e : ε} {next : Except ε β → Call σ ω κ α} {ws : List ω}
    {ls : Locks κ} (h : Linked D G Q sys calls)
    (hs : sys.session i = .busy (.ret (.error e)) next ws ls) :
    ∃ calls', Linked D G Q (sys.set i (.idle (next (.error e)))) calls' ∧
      Moves (G i) i sys.store calls sys.store calls' := by
  have hsim := h.sim i
  have hkeeps := h.keeps i
  rw [hs] at hsim
  rcases hsim with ⟨body, hcall, hreaches⟩ | ⟨e', hret, hcall⟩
  · -- no statement failed: the body itself decided to return an error
    rw [hcall] at hkeeps
    have hnext := hreaches.keeps (hkeeps sys.store h.inv (D.refl _))
    refine ⟨_, h.set (fun _ _ => compatible_nil_left _) hnext rfl, .inr ⟨_, ?_, rfl, .inl rfl⟩⟩
    simp [hcall, Call.act, hreaches.run_eq]
  · cases hret
    exact ⟨calls, h.stay (fun _ _ => compatible_nil_left _) hcall, .inl ⟨rfl, rfl⟩⟩

theorem auto {effect : σ → Effect ω κ} {next : σ → Call σ ω κ α} (h : Linked D G Q sys calls)
    (hs : sys.session i = .idle (.auto effect next))
    (hgrants : sys.Grants i (effect sys.store).locks) :
    ∃ calls', Linked D G Q (sys.put i (.idle (next sys.store))
        (applyAll (effect sys.store).writes sys.store)) calls' ∧
      D.Evolves sys.store (applyAll (effect sys.store).writes sys.store) ∧
      Moves (G i) i sys.store calls (applyAll (effect sys.store).writes sys.store) calls' := by
  have hcall := h.sim i
  have hkeeps := h.keeps i
  rw [hs] at hcall
  rw [Session.Sim] at hcall
  rw [hcall] at hkeeps
  obtain ⟨hcommits, hnext⟩ := hkeeps sys.store h.inv (D.refl _)
  refine ⟨_, h.put hcommits hgrants hnext, hcommits.evolves,
    .inr ⟨_, ?_, rfl, .inr hcommits.guarantee⟩⟩
  simp [hcall, Call.act]

/-- The first step inside a snapshot settles what the snapshot answers. -/
theorem pin {ρ : Type} {body : Body σ ω κ ρ} {next : ρ → Call σ ω κ α} {a : Session σ ω κ α}
    (h : Linked D G Q sys calls) (hs : sys.session i = .reading body next none)
    (hlocks : a.locks = []) (hsim : a.Sim sys.store (next (body.read sys.store))) :
    ∃ calls', Linked D G Q (sys.set i a) calls' ∧
      Moves (G i) i sys.store calls sys.store calls' := by
  have hcall := h.sim i
  have hkeeps := h.keeps i
  rw [hs] at hcall
  rw [Session.Sim] at hcall
  rw [hcall] at hkeeps
  refine ⟨_, h.set ?_ (hkeeps sys.store h.inv (D.refl _)) hsim, .inr ⟨_, ?_, rfl, .inl rfl⟩⟩
  · rw [hlocks]
    exact fun _ _ => compatible_nil_left _
  · simp [hcall, Call.act]

/-- A step that neither touches the committed state nor holds locks after it. -/
theorem quiet (h : Linked D G Q sys calls) {a : Session σ ω κ α} (hlocks : a.locks = [])
    (hsim : a.Sim sys.store (calls i)) :
    ∃ calls', Linked D G Q (sys.set i a) calls' ∧
      Moves (G i) i sys.store calls sys.store calls' := by
  refine ⟨calls, h.stay ?_ hsim, .inl ⟨rfl, rfl⟩⟩
  rw [hlocks]
  exact fun _ _ => compatible_nil_left _

/-- One step of the system is no step, or one whole transaction, of the calls. -/
theorem step (h : Linked D G Q sys calls) {event : Event} {sys' : System ι σ ω κ α}
    (hstep : Step i event sys sys') :
    ∃ calls', Linked D G Q sys' calls' ∧ D.Evolves sys.store sys'.store ∧
      Moves (G i) i sys.store calls sys'.store calls' := by
  have hsim := h.sim i
  have hlift : ∀ {a : Session σ ω κ α}, (∃ calls', Linked D G Q (sys.set i a) calls' ∧
      Moves (G i) i sys.store calls sys.store calls') →
      ∃ calls', Linked D G Q (sys.set i a) calls' ∧ D.Evolves sys.store sys.store ∧
        Moves (G i) i sys.store calls sys.store calls' :=
    fun ⟨calls', hlinked, hmoves⟩ => ⟨calls', hlinked, D.refl _, hmoves⟩
  cases hstep with
  | begin hs => exact ⟨calls, h.begin_body hs, D.refl _, .inl ⟨rfl, rfl⟩⟩
  | statement hs hgrants => exact hlift (h.statement hs hgrants)
  | commit hs => exact h.commit hs
  | rollback hs => exact hlift (h.rollback hs)
  | auto hs hgrants => exact h.auto hs hgrants
  | beginSnapshot hs =>
    rw [hs] at hsim
    exact hlift (h.quiet rfl hsim)
  | @read _ _ _ _ _ pinned hs =>
    cases pinned with
    | none => exact hlift (h.pin hs rfl rfl)
    | some pinned =>
      rw [hs] at hsim
      exact hlift (h.quiet rfl hsim)
  | @finish _ _ _ _ pinned hs =>
    cases pinned with
    | none => exact hlift (h.pin hs rfl rfl)
    | some pinned =>
      rw [hs] at hsim
      exact hlift (h.quiet rfl hsim)
  | crash => exact hlift (h.quiet rfl trivial)

/-- Over a whole run, the system stays linked to calls that move in whole transactions. -/
theorem run (h : Linked D G Q sys calls) {trace : List (ι × Event)} {sys' : System ι σ ω κ α}
    (hrun : Run sys trace sys') :
    (∃ calls', Linked D G Q sys' calls') ∧ D.Evolves sys.store sys'.store := by
  induction hrun with
  | nil => exact ⟨⟨calls, h⟩, D.refl _⟩
  | snoc _ hstep ih =>
    obtain ⟨⟨calls', hlinked⟩, hevolves⟩ := ih
    obtain ⟨calls'', hlinked', hevolves', -⟩ := hlinked.step hstep
    exact ⟨⟨calls'', hlinked'⟩, D.trans hevolves hevolves'⟩

omit [DecidableEq ι] in
theorem call_of_idle (h : Linked D G Q sys calls) {c : Call σ ω κ α}
    (hs : sys.session i = .idle c) : calls i = c := by
  have hcall := h.sim i
  rw [hs] at hcall
  exact hcall

omit [DecidableEq ι] in
/-- What a session answers meets what was shown of its call. -/
theorem answer (h : Linked D G Q sys calls) {a : α} (hs : sys.session i = .idle (.ret a)) :
    Q i a sys.store := by
  have hkeeps := h.keeps i
  rw [h.call_of_idle hs] at hkeeps
  exact hkeeps sys.store h.inv (D.refl _)

omit [DecidableEq ι] in
/-- A session also answers what was shown of its call if it never gets to tell. -/
theorem replies (h : Linked D G Q sys calls) {a : α} (hs : (sys.session i).Replies a) :
    Q i a sys.store := by
  have hsim := h.sim i
  have hkeeps := h.keeps i
  cases hsession : sys.session i with
  | idle call =>
    rw [hsession] at hs
    cases call with
    | ret b =>
      obtain rfl : b = a := hs
      exact h.answer hsession
    | _ => exact hs.elim
  | busy rest next ws ls =>
    rw [hsession] at hs hsim
    match rest, hs, hsim with
    | .ret (.error e), hs, .inl ⟨body, hcall, hreaches⟩ =>
      rw [hcall] at hkeeps
      have hnext : (next (.error e)).Keeps D (G i) (Q i) sys.store :=
        hreaches.keeps (hkeeps sys.store h.inv (D.refl _))
      rw [show next (.error e) = .ret a from hs] at hnext
      exact hnext sys.store h.inv (D.refl _)
    | .ret (.error e), hs, .inr ⟨e', hret, hcall⟩ =>
      obtain rfl : e = e' := by
        cases hret
        rfl
      rw [hcall, show next (.error e) = .ret a from hs] at hkeeps
      exact hkeeps sys.store h.inv (D.refl _)
  | reading rest next pinned =>
    rw [hsession] at hs
    exact hs.elim
  | dead =>
    rw [hsession] at hs
    exact hs.elim

/-- From now on, a call may be held to what follows from the state it has come to. -/
theorem retarget (h : Linked D G Q sys calls) {G' : σ → σ → Prop} {Q' : α → σ → Prop}
    (hkeeps : (calls i).Keeps D G' Q' sys.store) :
    Linked D (Function.update G i G') (Function.update Q i Q') sys calls := by
  refine ⟨h.inv, h.exclusive, ?_, h.sim⟩
  intro j
  by_cases hj : j = i
  · subst hj
    rwa [Function.update_self, Function.update_self]
  · rw [Function.update_of_ne hj, Function.update_of_ne hj]
    exact h.keeps j

/-- Either a session has not moved on, or one of its steps ran the next transaction of its
call in one piece. -/
theorem acts (h : Linked D G Q sys calls) {trace : List (ι × Event)} {sys' : System ι σ ω κ α}
    (hrun : Run sys trace sys') (i : ι) :
    ∃ calls', Linked D G Q sys' calls' ∧ (calls' i = calls i ∨
      ∃ event before after calls₂, Around i event sys trace sys' before after ∧
        (calls i).act before.store = some (calls₂ i, after.store) ∧
          Linked D G Q after calls₂) := by
  induction hrun with
  | nil => exact ⟨calls, h, .inl rfl⟩
  | @snoc mid sys'' trace j event hrun hstep ih =>
    obtain ⟨calls', hlinked, hmoved⟩ := ih
    obtain ⟨calls'', hlinked', -, hmoves⟩ := hlinked.step hstep
    refine ⟨calls'', hlinked', ?_⟩
    rcases hmoved with hstays | ⟨_, before, after, calls₂, haround, hact, hlinked₂⟩
    · rcases hmoves with ⟨-, rfl⟩ | ⟨c, hact, rfl, -⟩
      · exact .inl hstays
      · by_cases hj : j = i
        · subst hj
          rw [hstays] at hact
          refine .inr ⟨event, mid, sys'', _, ⟨trace, [], rfl, hrun, hstep, .nil _⟩, ?_, hlinked'⟩
          rw [Function.update_self]
          exact hact
        · rw [Function.update_of_ne (Ne.symm hj)]
          exact .inl hstays
    · exact .inr ⟨_, before, after, calls₂, haround.snoc hstep, hact, hlinked₂⟩

omit [DecidableEq ι] in
/-- One transaction or statement is the whole of such a call. -/
theorem run_of_single {c c' : Call σ ω κ α} (hsingle : c.Single) {s s' : σ}
    (hact : c.act s = some (c', s')) : ∃ a, c' = .ret a ∧ c.run s = (a, s') := by
  obtain ⟨a, rfl⟩ := hsingle s c' s' hact
  exact ⟨a, rfl, Call.run_of_act hact⟩

/-- A call that has answered stays where it is. -/
theorem run_of_ret (h : Linked D G Q sys calls) {a : α} (hret : calls i = .ret a)
    {trace : List (ι × Event)} {sys' : System ι σ ω κ α} (hrun : Run sys trace sys') :
    ∃ calls', Linked D G Q sys' calls' ∧ calls' i = .ret a := by
  obtain ⟨calls', hlinked, hstays | ⟨_, _, _, _, -, hact, -⟩⟩ := h.acts hrun i
  · exact ⟨calls', hlinked, hstays.trans hret⟩
  · rw [hret] at hact
    cases hact

/-- A step of a session whose call is one transaction leaves the committed state as it is, or
runs the call in one piece. -/
theorem single_step (h : Linked D G Q sys calls) (hsingle : (calls i).Single)
    {trace : List (ι × Event)} {event : Event} {sys' before after : System ι σ ω κ α}
    (hat : Around i event sys trace sys' before after) :
    after.store = before.store ∨ ∃ a, (calls i).run before.store = (a, after.store) := by
  obtain ⟨_, _, -, hbefore, hstep, -⟩ := hat
  have hcalled : ∃ calls', Linked D G Q before calls' ∧
      (calls' i = calls i ∨ ∃ a, calls' i = .ret a) := by
    obtain ⟨calls', hlinked, hstays | ⟨_, mid, mid', calls₂, hmid, hact, hlinked₂⟩⟩ :=
      h.acts hbefore i
    · exact ⟨calls', hlinked, .inl hstays⟩
    · obtain ⟨a, hret, -⟩ := run_of_single hsingle hact
      obtain ⟨_, _, -, -, -, hrest⟩ := hmid
      obtain ⟨calls₃, hlinked₃, hret₃⟩ := hlinked₂.run_of_ret hret hrest
      exact ⟨calls₃, hlinked₃, .inr ⟨a, hret₃⟩⟩
  obtain ⟨calls', hlinked, hcalled⟩ := hcalled
  obtain ⟨_, -, -, ⟨hstore, -⟩ | ⟨c, hact, -, -⟩⟩ := hlinked.step hstep
  · exact .inl hstore
  · rcases hcalled with hsame | ⟨a, hret⟩
    · rw [hsame] at hact
      obtain ⟨a, -, hrun⟩ := run_of_single hsingle hact
      exact .inr ⟨a, hrun⟩
    · rw [hret] at hact
      cases hact

/-- The answer to a call that is one transaction is what running it in one piece gives, at
one step of the session. -/
theorem single_answer (h : Linked D G Q sys calls) (hsingle : (calls i).Single)
    {trace : List (ι × Event)} {sys' : System ι σ ω κ α} (hrun : Run sys trace sys') {a : α}
    (hs : sys'.session i = .idle (.ret a)) : calls i = .ret a ∨ ∃ event before after,
      Around i event sys trace sys' before after ∧
        (calls i).run before.store = (a, after.store) := by
  obtain ⟨calls', hlinked, hstays | ⟨event, before, after, calls₂, hat, hact, hlinked₂⟩⟩ :=
    h.acts hrun i
  · exact .inl (hstays.symm.trans (hlinked.call_of_idle hs))
  · obtain ⟨b, hret, hb⟩ := run_of_single hsingle hact
    obtain ⟨_, _, -, -, -, hrest⟩ := id hat
    obtain ⟨calls₃, hlinked₃, hret₃⟩ := hlinked₂.run_of_ret hret hrest
    have hab : Call.ret b = Call.ret a := hret₃.symm.trans (hlinked₃.call_of_idle hs)
    cases hab
    exact .inr ⟨event, before, after, hat, hb⟩

/-- What a call guarantees holds of each of its steps that changes the committed state. -/
theorem guarantee (h : Linked D G Q sys calls) {G' : σ → σ → Prop} {Q' : α → σ → Prop}
    (hkeeps : (calls i).Keeps D G' Q' sys.store) {trace : List (ι × Event)}
    {before after : System ι σ ω κ α} (hrun : Run sys trace before) {event : Event}
    (hstep : Step i event before after) :
    after.store = before.store ∨ G' before.store after.store := by
  obtain ⟨⟨calls', hlinked⟩, -⟩ := (h.retarget hkeeps).run hrun
  obtain ⟨calls'', -, -, hmoves⟩ := hlinked.step hstep
  rw [Function.update_self] at hmoves
  rcases hmoves with ⟨hs, -⟩ | ⟨c, -, -, hG⟩
  · exact .inl hs
  · exact hG

/-- A call that only ever commits what was there before changes nothing. -/
theorem silent (h : Linked D G Q sys calls) {Q' : α → σ → Prop}
    (hkeeps : (calls i).Keeps D (fun s s' => s' = s) Q' sys.store) {trace : List (ι × Event)}
    {before after : System ι σ ω κ α} (hrun : Run sys trace before) {event : Event}
    (hstep : Step i event before after) : after.store = before.store :=
  (h.guarantee hkeeps hrun hstep).elim id id

end Linked

end Interbellum.Txn
