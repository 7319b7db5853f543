import Mathlib.Logic.Function.Basic
import Interbellum.Txn.Program

/-!
# Interleaved clients

Clients share a database. Each runs its call in a session of its own, and the steps of the
sessions interleave at the level of statements. A statement runs when no other session holds
a conflicting lock, sees what was committed before it together with the writes of its own
transaction, and keeps its locks until the transaction ends. A commit makes the writes of
the transaction part of the committed state at once; a rollback drops them. A snapshot
transaction reads what was committed at its first statement. A session may die at any
moment: an open transaction is then rolled back, and the answer of a finished one is lost.

* `run_alone`: a session whose call meets no locks of others can run it to its end, with the
  meaning `Call.run` gives to it.
-/

namespace Interbellum.Txn

variable {ι σ ω κ α : Type}

inductive Session (σ ω κ α : Type) : Type 1 where
  | idle (call : Call σ ω κ α)
  | busy {ε β : Type} (rest : Body σ ω κ (Except ε β)) (next : Except ε β → Call σ ω κ α)
      (ws : List ω) (ls : Locks κ)
  | reading {ρ : Type} (rest : Body σ ω κ ρ) (next : ρ → Call σ ω κ α) (pinned : Option σ)
  | dead

/-- The locks a session holds. -/
def Session.locks : Session σ ω κ α → Locks κ
  | .busy _ _ _ ls => ls
  | .idle _ | .reading _ _ _ | .dead => []

/-- The session has answered `a`, or its transaction has failed so that it is going to. -/
def Session.Replies (a : α) : Session σ ω κ α → Prop
  | .idle (.ret b) => b = a
  | .busy (.ret (.error e)) next _ _ => next (.error e) = .ret a
  | _ => False

/-- The committed state, and where each client stands. -/
structure System (ι σ ω κ α : Type) : Type 1 where
  store : σ
  session : ι → Session σ ω κ α

/-- Session `i` need not wait for the locks `ls`. -/
def System.Grants (sys : System ι σ ω κ α) (i : ι) (ls : Locks κ) : Prop :=
  ∀ j, j ≠ i → Compatible ls (sys.session j).locks

inductive Event where
  | begin
  | statement
  | commit
  | rollback
  | auto
  | read
  | finish
  | crash
  deriving DecidableEq, Repr

namespace System

variable [DecidableEq ι] (sys : System ι σ ω κ α) (i : ι) (a b : Session σ ω κ α) (s t : σ)

/-- Session `i` has moved on and left the committed state as it is. -/
def set : System ι σ ω κ α := { sys with session := Function.update sys.session i a }

/-- Session `i` has moved on and made `s` the committed state. -/
def put : System ι σ ω κ α := { sys.set i a with store := s }

@[simp] theorem set_store : (sys.set i a).store = sys.store := rfl

@[simp] theorem put_store : (sys.put i a s).store = s := rfl

@[simp] theorem set_self : (sys.set i a).session i = a := Function.update_self ..

@[simp] theorem put_self : (sys.put i a s).session i = a := Function.update_self ..

variable {i} in
theorem set_of_ne {j : ι} (h : j ≠ i) : (sys.set i a).session j = sys.session j :=
  Function.update_of_ne h ..

variable {i} in
theorem put_of_ne {j : ι} (h : j ≠ i) : (sys.put i a s).session j = sys.session j :=
  Function.update_of_ne h ..

@[simp] theorem set_set : (sys.set i a).set i b = sys.set i b := by
  simp [set]

@[simp] theorem set_put : (sys.set i a).put i b s = sys.put i b s := by
  simp [set, put]

@[simp] theorem put_set : (sys.put i a s).set i b = sys.put i b s := by
  simp [set, put]

@[simp] theorem put_put : (sys.put i a s).put i b t = sys.put i b t := by
  simp [set, put]

variable {sys i a} in
theorem set_eq_self (h : sys.session i = a) : sys.set i a = sys := by
  simp [set, ← h]

variable {sys i a} in
theorem put_eq_self (h : sys.session i = a) : sys.put i a sys.store = sys := by
  simp [put, set, ← h]

end System

section

variable [DecidableEq ι] [Writable σ ω]

/-- One step of session `i`. -/
inductive Step (i : ι) : Event → System ι σ ω κ α → System ι σ ω κ α → Prop
  | begin {sys : System ι σ ω κ α} {ε β : Type} {body : Body σ ω κ (Except ε β)}
      {next : Except ε β → Call σ ω κ α}
      (h : sys.session i = .idle (.tx body next)) :
      Step i .begin sys (sys.set i (.busy body next [] []))
  | statement {sys : System ι σ ω κ α} {ε β : Type} {effect : σ → Effect ω κ}
      {rest : σ → Body σ ω κ (Except ε β)} {next : Except ε β → Call σ ω κ α}
      {ws : List ω} {ls : Locks κ}
      (h : sys.session i = .busy (.stmt effect rest) next ws ls)
      (hgrants : sys.Grants i (effect (applyAll ws sys.store)).locks) :
      Step i .statement sys (sys.set i (.busy (rest (applyAll ws sys.store)) next
        (ws ++ (effect (applyAll ws sys.store)).writes)
        (ls ++ (effect (applyAll ws sys.store)).locks)))
  | commit {sys : System ι σ ω κ α} {ε β : Type} {b : β} {next : Except ε β → Call σ ω κ α}
      {ws : List ω} {ls : Locks κ}
      (h : sys.session i = .busy (.ret (.ok b)) next ws ls) :
      Step i .commit sys (sys.put i (.idle (next (.ok b))) (applyAll ws sys.store))
  | rollback {sys : System ι σ ω κ α} {ε β : Type} {e : ε} {next : Except ε β → Call σ ω κ α}
      {ws : List ω} {ls : Locks κ}
      (h : sys.session i = .busy (.ret (.error e)) next ws ls) :
      Step i .rollback sys (sys.set i (.idle (next (.error e))))
  | auto {sys : System ι σ ω κ α} {effect : σ → Effect ω κ} {next : σ → Call σ ω κ α}
      (h : sys.session i = .idle (.auto effect next))
      (hgrants : sys.Grants i (effect sys.store).locks) :
      Step i .auto sys (sys.put i (.idle (next sys.store))
        (applyAll (effect sys.store).writes sys.store))
  | beginSnapshot {sys : System ι σ ω κ α} {ρ : Type} {body : Body σ ω κ ρ}
      {next : ρ → Call σ ω κ α}
      (h : sys.session i = .idle (.snapshot body next)) :
      Step i .begin sys (sys.set i (.reading body next none))
  | read {sys : System ι σ ω κ α} {ρ : Type} {effect : σ → Effect ω κ}
      {rest : σ → Body σ ω κ ρ} {next : ρ → Call σ ω κ α} {pinned : Option σ}
      (h : sys.session i = .reading (.stmt effect rest) next pinned) :
      Step i .read sys (sys.set i (.reading (rest (pinned.getD sys.store)) next
        (some (pinned.getD sys.store))))
  | finish {sys : System ι σ ω κ α} {ρ : Type} {r : ρ} {next : ρ → Call σ ω κ α}
      {pinned : Option σ}
      (h : sys.session i = .reading (.ret r) next pinned) :
      Step i .finish sys (sys.set i (.idle (next r)))
  | crash {sys : System ι σ ω κ α} :
      Step i .crash sys (sys.set i .dead)

/-- A session whose next statement is one of its own runs it, or dies. -/
theorem Step.of_auto {i : ι} {event : Event} {sys sys' : System ι σ ω κ α}
    {effect : σ → Effect ω κ} {next : σ → Call σ ω κ α} (hstep : Step i event sys sys')
    (hs : sys.session i = .idle (.auto effect next)) :
    sys' = sys.set i .dead ∨
      sys' = sys.put i (.idle (next sys.store)) (applyAll (effect sys.store).writes sys.store) := by
  cases hstep with
  | auto h =>
    rw [hs] at h
    cases h
    exact .inr rfl
  | crash => exact .inl rfl
  | begin h => exact nomatch hs.symm.trans h
  | statement h => exact nomatch hs.symm.trans h
  | commit h => exact nomatch hs.symm.trans h
  | rollback h => exact nomatch hs.symm.trans h
  | beginSnapshot h => exact nomatch hs.symm.trans h
  | read h => exact nomatch hs.symm.trans h
  | finish h => exact nomatch hs.symm.trans h

/-- A session that has answered, or died, can only die. -/
theorem Step.of_done {i : ι} {event : Event} {sys sys' : System ι σ ω κ α}
    (hstep : Step i event sys sys')
    (hs : (∃ a, sys.session i = .idle (.ret a)) ∨ sys.session i = .dead) :
    sys' = sys.set i .dead := by
  rcases hs with ⟨a, hs⟩ | hs <;> cases hstep with
  | crash => rfl
  | begin h => exact nomatch hs.symm.trans h
  | statement h => exact nomatch hs.symm.trans h
  | commit h => exact nomatch hs.symm.trans h
  | rollback h => exact nomatch hs.symm.trans h
  | auto h => exact nomatch hs.symm.trans h
  | beginSnapshot h => exact nomatch hs.symm.trans h
  | read h => exact nomatch hs.symm.trans h
  | finish h => exact nomatch hs.symm.trans h

/-- A run, with its steps in order. -/
inductive Run : System ι σ ω κ α → List (ι × Event) → System ι σ ω κ α → Prop
  | nil (sys : System ι σ ω κ α) : Run sys [] sys
  | snoc {sys sys' sys'' : System ι σ ω κ α} {trace : List (ι × Event)} {i : ι} {event : Event}
      (hrun : Run sys trace sys') (hstep : Step i event sys' sys'') :
      Run sys (trace ++ [(i, event)]) sys''

theorem Run.single {sys sys' : System ι σ ω κ α} {i : ι} {event : Event}
    (h : Step i event sys sys') : Run sys [(i, event)] sys' := .snoc (.nil sys) h

/-- A statement of its own that only reads. -/
theorem Run.reads {sys : System ι σ ω κ α} {i : ι} {effect : σ → Effect ω κ}
    {next : σ → Call σ ω κ α} (hs : sys.session i = .idle (.auto effect next))
    (heffect : effect sys.store = ⟨[], []⟩) :
    Run sys [(i, .auto)] (sys.set i (.idle (next sys.store))) := by
  have hgrants : sys.Grants i (effect sys.store).locks := by
    rw [heffect]
    exact fun _ _ => compatible_nil_left _
  have hstep := Step.auto hs hgrants
  rw [heffect] at hstep
  exact .single hstep

theorem Run.append {sys sys' sys'' : System ι σ ω κ α} {t t' : List (ι × Event)}
    (h : Run sys t sys') (h' : Run sys' t' sys'') : Run sys (t ++ t') sys'' := by
  induction h' with
  | nil => rwa [List.append_nil]
  | snoc _ hstep ih =>
    rw [← List.append_assoc]
    exact .snoc ih hstep

/-- `before` and `after` are what one step of session `i` in the run leads from and to. -/
def Around (i : ι) (event : Event) (sys : System ι σ ω κ α) (trace : List (ι × Event))
    (sys' before after : System ι σ ω κ α) : Prop :=
  ∃ t t', trace = t ++ (i, event) :: t' ∧ Run sys t before ∧ Step i event before after ∧
    Run after t' sys'

theorem Around.snoc {i j : ι} {event event' : Event} {trace : List (ι × Event)}
    {sys sys' sys'' before after : System ι σ ω κ α}
    (h : Around i event sys trace sys' before after) (hstep : Step j event' sys' sys'') :
    Around i event sys (trace ++ [(j, event')]) sys'' before after := by
  obtain ⟨t, t', rfl, hbefore, hat, hafter⟩ := h
  exact ⟨t, t' ++ [(j, event')], by simp, hbefore, hat, .snoc hafter hstep⟩

/-- What has become true of the committed state became true at some step. -/
theorem Run.becomes {P : σ → Prop} {sys sys' : System ι σ ω κ α} {trace : List (ι × Event)}
    (h : Run sys trace sys') (hnot : ¬ P sys.store) (hP : P sys'.store) :
    ∃ i event before after, Around i event sys trace sys' before after ∧ ¬ P before.store ∧
      P after.store := by
  induction h with
  | nil => exact absurd hP hnot
  | @snoc mid sys'' trace i event hrun hstep ih =>
    by_cases hmid : P mid.store
    · obtain ⟨j, event', before, after, hat, hbefore, hafter⟩ := ih hmid
      exact ⟨j, event', before, after, hat.snoc hstep, hbefore, hafter⟩
    · exact ⟨i, event, mid, sys'', ⟨trace, [], rfl, hrun, hstep, .nil _⟩, hmid, hP⟩

/-- The committed state changes when a transaction commits and when a statement runs on its
own. -/
theorem Step.of_changed {sys sys' : System ι σ ω κ α} {i : ι} {event : Event}
    (h : Step i event sys sys') (hchanged : sys'.store ≠ sys.store) :
    event = .commit ∨ ∃ effect next, sys.session i = .idle (.auto effect next) := by
  cases h with
  | commit => exact .inl rfl
  | auto h => exact .inr ⟨_, _, h⟩
  | _ => exact absurd rfl hchanged

/-- A step of one session leaves the others where they are. -/
theorem Step.session_of_ne {sys sys' : System ι σ ω κ α} {i j : ι} {event : Event}
    (h : Step i event sys sys') (hj : j ≠ i) : sys'.session j = sys.session j := by
  cases h <;> exact System.set_of_ne _ _ hj

end

section

variable [DecidableEq ι] [Writable σ ω] {sys sys' : System ι σ ω κ α} {i : ι}
  {trace : List (ι × Event)}

/-- A session that has answered or died has no more steps but to die. -/
theorem Run.ended (h : Run sys trace sys')
    (hs : sys.session i = .dead ∨ ∃ a, sys.session i = .idle (.ret a)) :
    sys'.session i = sys.session i ∨ sys'.session i = .dead := by
  induction h with
  | nil => exact .inl rfl
  | @snoc mid _ _ j _ _ hstep ih =>
    by_cases hj : j = i
    · subst hj
      have hmid : mid.session j = .dead ∨ ∃ a, mid.session j = .idle (.ret a) := by
        rcases ih with hsame | hdead
        · rwa [hsame]
        · exact .inl hdead
      cases hstep with
      | crash => exact .inr (System.set_self ..)
      | _ h =>
        rcases hmid with hdead | ⟨a, hanswered⟩
        · exact nomatch hdead.symm.trans h
        · exact nomatch hanswered.symm.trans h
    · rwa [hstep.session_of_ne (Ne.symm hj)]

/-- A session that is about to send a statement of its own, and gets to an answer, sends it
at one step of the run. -/
theorem Run.sends {effect : σ → Effect ω κ} {next : σ → Call σ ω κ α}
    (h : Run sys trace sys') (hs : sys.session i = .idle (.auto effect next)) :
    sys'.session i = .idle (.auto effect next) ∨ sys'.session i = .dead ∨
      ∃ t t' before after, trace = t ++ (i, .auto) :: t' ∧ Run sys t before ∧
        Step i .auto before after ∧ Run after t' sys' ∧
        after.session i = .idle (next before.store) := by
  induction h with
  | nil => exact .inl hs
  | @snoc mid sys'' trace j event hrun hstep ih =>
    rcases ih with hwaits | hdead | ⟨t, t', before, after, rfl, hbefore, hat, hafter, hnext⟩
    · by_cases hj : j = i
      · subst hj
        cases id hstep with
        | auto h =>
          obtain ⟨rfl, rfl⟩ : _ ∧ _ := by simpa [hwaits] using h
          exact .inr (.inr ⟨trace, [], mid, _, rfl, hrun, hstep, .nil _, System.put_self ..⟩)
        | crash => exact .inr (.inl (System.set_self ..))
        | _ h => exact nomatch hwaits.symm.trans h
      · rw [hstep.session_of_ne (Ne.symm hj)]
        exact .inl hwaits
    · rcases (Run.single hstep).ended (.inl hdead) with hsame | hdead'
      · exact .inr (.inl (hsame.trans hdead))
      · exact .inr (.inl hdead')
    · exact .inr (.inr ⟨t, t' ++ [(j, event)], before, after, by simp, hbefore, hat,
        .snoc hafter hstep, hnext⟩)

theorem Run.sends_of_answer {effect : σ → Effect ω κ} {next : σ → Call σ ω κ α}
    (h : Run sys trace sys') (hs : sys.session i = .idle (.auto effect next)) {a : α}
    (hanswer : sys'.session i = .idle (.ret a)) :
    ∃ t t' before after, trace = t ++ (i, .auto) :: t' ∧ Run sys t before ∧
      Step i .auto before after ∧ Run after t' sys' ∧
      after.session i = .idle (next before.store) := by
  rcases h.sends hs with hwaits | hdead | hsent
  · exact nomatch hanswer.symm.trans hwaits
  · exact nomatch hanswer.symm.trans hdead
  · exact hsent

end

/-! ## Running alone -/

/-- No session but `i` holds a lock. -/
def System.Alone (sys : System ι σ ω κ α) (i : ι) : Prop :=
  ∀ j, j ≠ i → (sys.session j).locks = []

theorem System.Alone.grants {sys : System ι σ ω κ α} {i : ι} (h : sys.Alone i) (ls : Locks κ) :
    sys.Grants i ls := by
  intro j hj
  rw [h j hj]
  exact compatible_nil_right ls

section

variable [DecidableEq ι]

theorem System.Alone.set {sys : System ι σ ω κ α} {i : ι} (h : sys.Alone i)
    (a : Session σ ω κ α) : (sys.set i a).Alone i := by
  intro j hj
  rw [System.set_of_ne _ _ hj]
  exact h j hj

theorem System.Alone.put {sys : System ι σ ω κ α} {i : ι} (h : sys.Alone i)
    (a : Session σ ω κ α) (s : σ) : (sys.put i a s).Alone i := h.set a

variable [Writable σ ω]

theorem busy_alone {ε β : Type} (body : Body σ ω κ (Except ε β))
    {next : Except ε β → Call σ ω κ α} {i : ι} {sys : System ι σ ω κ α} (h : sys.Alone i)
    {ws : List ω} {ls : Locks κ} (hs : sys.session i = .busy body next ws ls) :
    ∃ trace ls', Run sys trace (sys.set i (.busy (.ret (body.run sys.store ws).1) next
      (body.run sys.store ws).2 ls')) := by
  induction body generalizing sys ws ls with
  | ret r =>
    refine ⟨[], ls, ?_⟩
    rw [Body.run_ret, System.set_eq_self hs]
    exact .nil sys
  | stmt effect rest ih =>
    have hstep := Step.statement hs (h.grants _)
    obtain ⟨trace, ls', hrun⟩ := ih (applyAll ws sys.store) (h.set _) (System.set_self _ _ _)
    rw [System.set_set] at hrun
    exact ⟨_, ls', (Run.single hstep).append hrun⟩

theorem reading_alone {ρ : Type} (body : Body σ ω κ ρ) {next : ρ → Call σ ω κ α} {i : ι}
    {sys : System ι σ ω κ α} {pinned : Option σ}
    (hs : sys.session i = .reading body next pinned) (hpinned : pinned.getD sys.store = sys.store) :
    ∃ trace pinned', Run sys trace
      (sys.set i (.reading (.ret (body.read sys.store)) next pinned')) := by
  induction body generalizing sys pinned with
  | ret r =>
    refine ⟨[], pinned, ?_⟩
    rw [Body.read_ret, System.set_eq_self hs]
    exact .nil sys
  | stmt effect rest ih =>
    have hstep := Step.read hs
    rw [hpinned] at hstep
    obtain ⟨trace, pinned', hrun⟩ := @ih sys.store
      (sys.set i (.reading (rest sys.store) next (some sys.store))) _ (System.set_self _ _ _) rfl
    rw [System.set_set] at hrun
    exact ⟨_, pinned', (Run.single hstep).append hrun⟩

/-- Alone, a session runs its call to the end, as `Call.run` says. -/
theorem run_alone (c : Call σ ω κ α) {i : ι} {sys : System ι σ ω κ α} (h : sys.Alone i)
    (hs : sys.session i = .idle c) :
    ∃ trace, Run sys trace
      (sys.put i (.idle (.ret (c.run sys.store).1)) (c.run sys.store).2) := by
  induction c generalizing sys with
  | ret a =>
    refine ⟨[], ?_⟩
    simp only [Call.run]
    rw [System.put_eq_self hs]
    exact .nil sys
  | auto effect next ih =>
    have hstep := Step.auto hs (h.grants _)
    obtain ⟨trace, hrun⟩ := ih sys.store (h.put _ _) (System.put_self _ _ _ _)
    rw [System.put_put] at hrun
    exact ⟨_, (Run.single hstep).append hrun⟩
  | tx body next ih =>
    obtain ⟨trace, ls, hbody⟩ := busy_alone body (h.set _) (System.set_self _ _ _)
    rw [System.set_store, System.set_set] at hbody
    have hrun := (Run.single (Step.begin hs)).append hbody
    simp only [Call.run]
    cases hr : body.run sys.store [] with
    | mk r ws =>
      rw [hr] at hrun
      cases r with
      | ok b =>
        have hcommit := Step.commit (System.set_self sys i (.busy (.ret (.ok b)) next ws ls))
        rw [System.set_put, System.set_store] at hcommit
        obtain ⟨trace', hrest⟩ := ih (.ok b) (h.put _ (applyAll ws sys.store))
          (System.put_self _ _ _ _)
        rw [System.put_put, System.put_store] at hrest
        exact ⟨_, hrun.append ((Run.single hcommit).append hrest)⟩
      | error e =>
        have hrollback := Step.rollback
          (System.set_self sys i (.busy (.ret (.error e)) next ws ls))
        rw [System.set_set] at hrollback
        obtain ⟨trace', hrest⟩ := ih (.error e) (h.set _) (System.set_self _ _ _)
        rw [System.set_put, System.set_store] at hrest
        exact ⟨_, hrun.append ((Run.single hrollback).append hrest)⟩
  | snapshot body next ih =>
    obtain ⟨trace, pinned, hbody⟩ := reading_alone body
      (System.set_self sys i (.reading body next none)) rfl
    rw [System.set_store, System.set_set] at hbody
    have hrun := (Run.single (Step.beginSnapshot hs)).append hbody
    have hfinish := Step.finish
      (System.set_self sys i (.reading (.ret (body.read sys.store)) next pinned))
    rw [System.set_set] at hfinish
    obtain ⟨trace', hrest⟩ := ih (body.read sys.store) (h.set _) (System.set_self _ _ _)
    rw [System.set_put, System.set_store] at hrest
    exact ⟨_, hrun.append ((Run.single hfinish).append hrest)⟩

/-- A session may begin a transaction and send its first statement only after the whole call of
another. -/
theorem run_between {ε β : Type} {body : Body σ ω κ (Except ε β)}
    {next : Except ε β → Call σ ω κ α} {c : Call σ ω κ α} {i j : ι} {sys : System ι σ ω κ α}
    (hij : j ≠ i) (hlocks : ∀ k, (sys.session k).locks = [])
    (hi : sys.session i = .idle (.tx body next)) (hj : sys.session j = .idle c) {t : σ}
    (ht : t = (c.run sys.store).2) {b : β} (hok : (body.run t []).1 = .ok b) :
    ∃ trace sys', Run sys ((i, .begin) :: trace) sys' ∧
      sys'.store = applyAll (body.run t []).2 t := by
  have halone : (sys.set i (.busy body next [] [])).Alone j := by
    intro k _
    by_cases hk : k = i
    · rw [hk, System.set_self]
      rfl
    · rw [System.set_of_ne _ _ hk]
      exact hlocks k
  obtain ⟨first, hfirst⟩ := run_alone c halone ((System.set_of_ne _ _ hij).trans hj)
  rw [System.set_store, ← ht] at hfirst
  have halone' : ((sys.set i (.busy body next [] [])).put j
      (.idle (.ret (c.run sys.store).1)) t).Alone i := by
    intro k hk
    by_cases hkj : k = j
    · rw [hkj, System.put_self]
      rfl
    · rw [System.put_of_ne _ _ _ hkj]
      exact halone k hkj
  obtain ⟨second, ls, hsecond⟩ := busy_alone body halone'
    ((System.put_of_ne _ _ _ hij.symm).trans (System.set_self ..))
  rw [System.put_store, hok] at hsecond
  have hcommit := Step.commit (System.set_self ((sys.set i (.busy body next [] [])).put j
    (.idle (.ret (c.run sys.store).1)) t) i (.busy (.ret (.ok b)) next (body.run t []).2 ls))
  exact ⟨_, _, ((Run.single (Step.begin hi)).append (hfirst.append hsecond)).snoc hcommit, rfl⟩

end

end Interbellum.Txn
