import Interbellum.Txn.Refinement

/-!
# Calls that take effect at one moment

A `Plan` is a program that moves in atomic steps, each a function of the committed state. A call
refines a plan if each of its transactions and statements is the next step of the plan, or leaves
the committed state as it is; whatever the state evolves into in between, the plan has come to an
answer when the call has, and to the same one. `Plan.once` is one step: a call that refines it is
atomic, however many statements it sends.

* `Refining.run`: a run of interleaved clients is a run of their plans, and each step of a plan is
  taken at a step of its client.
* `refines_once_read`: the rule for a read in front of the step that has the effect.
* `Call.Single.refines`: a call of one transaction is atomic.
* `Refining.changed`: a client that has changed the state has nothing left to do but answer.
-/

namespace Interbellum.Txn

variable {ι σ ω κ α β : Type}

inductive Plan (σ α : Type) : Type 1 where
  | ret (a : α)
  | step {ρ : Type} (f : σ → ρ × σ) (next : ρ → Plan σ α)

namespace Plan

def once (f : σ → α × σ) : Plan σ α := .step f .ret

/-- The next step, if the plan has not come to its answer. -/
def act : Plan σ α → σ → Option (Plan σ α × σ)
  | .ret _, _ => none
  | .step f next, s => some (next (f s).1, (f s).2)

def map (g : α → β) : Plan σ α → Plan σ β
  | .ret a => .ret (g a)
  | .step f next => .step f fun r => (next r).map g

theorem act_map (g : α → β) {p p' : Plan σ α} {s s' : σ} (h : p.act s = some (p', s')) :
    (p.map g).act s = some (p'.map g, s') := by
  cases p with
  | ret a => cases h
  | step f next =>
    obtain ⟨rfl, rfl⟩ := Prod.mk.inj (Option.some.inj h)
    rfl

/-- From `s` to `s'` the plan takes its next step, or none, and is then as `R` says. -/
def Moves (R : Plan σ α → Prop) (p : Plan σ α) (s s' : σ) : Prop :=
  s' = s ∧ R p ∨ ∃ p', p.act s = some (p', s') ∧ R p'

theorem Moves.mono {R R' : Plan σ α → Prop} {p : Plan σ α} {s s' : σ} (h : Moves R p s s')
    (hR : ∀ p', R p' → R' p') : Moves R' p s s' :=
  h.imp (And.imp_right (hR p)) fun ⟨p', hact, hp'⟩ => ⟨p', hact, hR p' hp'⟩

theorem moves_step {ρ : Type} {R : Plan σ α → Prop} {f : σ → ρ × σ} {next : ρ → Plan σ α}
    {r : ρ} {s s' : σ} (hf : f s = (r, s')) (h : R (next r)) : Moves R (.step f next) s s' :=
  .inr ⟨next r, by rw [act, hf], h⟩

/-- Clients that move in atomic steps. -/
structure System (ι σ α : Type) : Type 1 where
  store : σ
  plan : ι → Plan σ α

/-- A run, with the clients in the order of their steps. -/
inductive Run [DecidableEq ι] : System ι σ α → List ι → System ι σ α → Prop
  | nil (sys : System ι σ α) : Run sys [] sys
  | snoc {sys sys' : System ι σ α} {order : List ι} {i : ι} {p : Plan σ α} {s : σ}
      (hrun : Run sys order sys') (hact : (sys'.plan i).act sys'.store = some (p, s)) :
      Run sys (order ++ [i]) ⟨s, Function.update sys'.plan i p⟩

end Plan

variable [Writable σ ω]

/-! ## Refinement of a plan -/

/-- From any state that `s` may evolve into, the call is the plan. -/
def Call.Refines (D : Discipline σ κ) : Call σ ω κ α → Plan σ α → σ → Prop
  | .ret a, p, _ => p = .ret a
  | .auto effect next, p, s => ∀ t, D.Inv t → D.Evolves s t →
      Plan.Moves (fun p' => Call.Refines D (next t) p' (applyAll (effect t).writes t)) p t
        (applyAll (effect t).writes t)
  | .tx body next, p, s => ∀ t, D.Inv t → D.Evolves s t →
      match body.run t [] with
      | (.ok b, ws) => Plan.Moves
          (fun p' => Call.Refines D (next (.ok b)) p' (applyAll ws t)) p t (applyAll ws t)
      | (.error e, _) => Plan.Moves (fun p' => Call.Refines D (next (.error e)) p' t) p t t
  | .snapshot body next, p, s => ∀ t, D.Inv t → D.Evolves s t →
      Plan.Moves (fun p' => Call.Refines D (next (body.read t)) p' t) p t t

namespace Call

variable {D : Discipline σ κ} {G : σ → σ → Prop} {c c' : Call σ ω κ α} {p : Plan σ α} {s s' : σ}

theorem Refines.act (h : c.Refines D p s) (hinv : D.Inv s) (hact : c.act s = some (c', s')) :
    Plan.Moves (fun p' => c'.Refines D p' s') p s s' := by
  cases c with
  | ret a => cases hact
  | auto effect next =>
    obtain ⟨rfl, rfl⟩ := Prod.mk.inj (Option.some.inj hact)
    exact h s hinv (D.refl s)
  | tx body next =>
    have hbody := h s hinv (D.refl s)
    simp only [Call.act] at hact
    rcases hr : body.run s [] with ⟨e | b, ws⟩
    · rw [hr] at hact hbody
      obtain ⟨rfl, rfl⟩ := Prod.mk.inj (Option.some.inj hact)
      exact hbody
    · rw [hr] at hact hbody
      obtain ⟨rfl, rfl⟩ := Prod.mk.inj (Option.some.inj hact)
      exact hbody
  | snapshot body next =>
    obtain ⟨rfl, rfl⟩ := Prod.mk.inj (Option.some.inj hact)
    exact h s hinv (D.refl s)

/-- A call refines a plan if its next transaction or statement does, from every later state. -/
theorem refines_of_act (hret : ∀ a, c ≠ .ret a)
    (h : ∀ t, D.Inv t → D.Evolves s t → ∀ c' t', c.act t = some (c', t') →
      Plan.Moves (fun p' => c'.Refines D p' t') p t t') : c.Refines D p s := by
  cases c with
  | ret a => exact absurd rfl (hret a)
  | auto effect next => exact fun t ht hst => h t ht hst _ _ rfl
  | tx body next =>
    intro t ht hst
    have hact := h t ht hst
    simp only [Call.act] at hact
    rcases hr : body.run t [] with ⟨e | b, ws⟩
    · rw [hr] at hact
      exact hact _ _ rfl
    · rw [hr] at hact
      exact hact _ _ rfl
  | snapshot body next => exact fun t ht hst => h t ht hst _ _ rfl

theorem Refines.later (h : c.Refines D p s) (hevolves : D.Evolves s s') : c.Refines D p s' := by
  cases c with
  | ret a => exact h
  | auto effect next => exact fun t ht hst => h t ht (D.trans hevolves hst)
  | tx body next => exact fun t ht hst => h t ht (D.trans hevolves hst)
  | snapshot body next => exact fun t ht hst => h t ht (D.trans hevolves hst)

theorem Refines.map (g : α → β) (h : c.Refines D p s) : (g <$> c).Refines D (p.map g) s := by
  have hmoves : ∀ {R : Plan σ α → Prop} {R' : Plan σ β → Prop} {p : Plan σ α} {t t' : σ},
      (∀ p', R p' → R' (p'.map g)) → Plan.Moves R p t t' → Plan.Moves R' (p.map g) t t' := by
    rintro R R' p t t' hR (⟨rfl, hp⟩ | ⟨p', hact, hp'⟩)
    · exact .inl ⟨rfl, hR p hp⟩
    · exact .inr ⟨p'.map g, Plan.act_map g hact, hR p' hp'⟩
  induction c generalizing p s with
  | ret a =>
    obtain rfl : p = .ret a := h
    rfl
  | auto effect next ih => exact fun t ht hst => hmoves (fun p' => ih t) (h t ht hst)
  | tx body next ih =>
    intro t ht hst
    have hbody := h t ht hst
    rcases hr : body.run t [] with ⟨e | b, ws⟩
    · rw [hr] at hbody
      exact hmoves (fun p' => ih (.error e)) hbody
    · rw [hr] at hbody
      exact hmoves (fun p' => ih (.ok b)) hbody
  | snapshot body next ih => exact fun t ht hst => hmoves (fun p' => ih _) (h t ht hst)

/-- A call whose answer is settled, and that changes nothing any more. -/
def Settled (D : Discipline σ κ) (a : α) (c : Call σ ω κ α) (s : σ) : Prop :=
  c.Keeps D (fun t t' => t' = t) (fun b _ => b = a) s

theorem Settled.run {a : α} (h : c.Settled D a s) (hinv : D.Inv s) : c.run s = (a, s) := by
  obtain ⟨-, -, hanswer⟩ := Keeps.run h hinv
  have hstore := Keeps.run_guarantee h hinv (fun _ => rfl) fun _ _ _ htu huv => huv.trans htu
  exact Prod.ext hanswer hstore

theorem Settled.refines {a : α} (h : c.Settled D a s) (hinv : D.Inv s) :
    c.Refines D (.ret a) s := by
  induction c generalizing s with
  | ret b => exact congrArg Plan.ret (h s hinv (D.refl s)).symm
  | auto effect next ih =>
    intro t ht hst
    obtain ⟨hcommits, hrest⟩ := h t ht hst
    exact .inl ⟨hcommits.guarantee, ih t hrest hcommits.inv⟩
  | tx body next ih =>
    intro t ht hst
    have hbody := (h t ht hst).run
    rcases hr : body.run t [] with ⟨e | b, ws⟩
    · rw [hr] at hbody
      exact .inl ⟨rfl, ih _ hbody ht⟩
    · rw [hr] at hbody
      obtain ⟨ls, hcommits, hrest⟩ := hbody
      exact .inl ⟨hcommits.guarantee, ih _ hrest hcommits.inv⟩
  | snapshot body next ih => exact fun t ht hst => .inl ⟨rfl, ih _ (h t ht hst) ht⟩

/-! ## Atomic calls -/

/-- The plan of a call that takes effect in one piece. A call that answers without a statement
has no effect to take. -/
def whole : Call σ ω κ α → Plan σ α
  | .ret a => .ret a
  | .auto effect next => .once (Call.auto effect next).run
  | .tx body next => .once (Call.tx body next).run
  | .snapshot body next => .once (Call.snapshot body next).run

theorem whole_of_ne (hret : ∀ a, c ≠ .ret a) : c.whole = .once c.run := by
  cases c with
  | ret a => exact absurd rfl (hret a)
  | _ => rfl

/-- A plan stands for every plan that takes the same steps. -/
theorem Refines.congr {q : Plan σ α} (h : c.Refines D p s) (hstep : ∀ a, p ≠ .ret a)
    (hact : ∀ t, p.act t = q.act t) : c.Refines D q s := by
  have hmoves : ∀ {R R' : Plan σ α → Prop} {t t' : σ}, (R p → R' q) → (∀ p', R p' → R' p') →
      Plan.Moves R p t t' → Plan.Moves R' q t t' := by
    rintro R R' t t' hstays hR (⟨rfl, hp⟩ | ⟨p', hp, hp'⟩)
    · exact .inl ⟨rfl, hstays hp⟩
    · exact .inr ⟨p', (hact t).symm.trans hp, hR p' hp'⟩
  induction c generalizing s with
  | ret a => exact absurd h (hstep a)
  | auto effect next ih => exact fun t ht hst => hmoves (ih t) (fun _ h => h) (h t ht hst)
  | tx body next ih =>
    intro t ht hst
    have hbody := h t ht hst
    rcases hr : body.run t [] with ⟨e | b, ws⟩
    · rw [hr] at hbody
      exact hmoves (ih (.error e)) (fun _ h => h) hbody
    · rw [hr] at hbody
      exact hmoves (ih (.ok b)) (fun _ h => h) hbody
  | snapshot body next ih => exact fun t ht hst => hmoves (ih _) (fun _ h => h) (h t ht hst)

theorem Refines.whole_map (g : α → β) (h : c.Refines D c.whole s) :
    (g <$> c).Refines D (g <$> c).whole s := by
  by_cases hret : ∃ a, c = .ret a
  · obtain ⟨a, rfl⟩ := hret
    rfl
  · have hret : ∀ a, c ≠ .ret a := not_exists.mp hret
    have hret' : ∀ b, g <$> c ≠ .ret b := by
      intro b hb
      cases c with
      | ret a => exact hret a rfl
      | _ => cases hb
    rw [whole_of_ne hret] at h
    rw [whole_of_ne hret']
    refine (h.map g).congr (fun _ hp => nomatch hp) ?_
    intro t
    show some (Plan.ret (g (c.run t).1), (c.run t).2) = some (.ret ((g <$> c).run t).1, _)
    rw [run_map]

/-- The step that has the effect, after which the answer is settled. -/
theorem moves_once {f : σ → α × σ} {a : α} (hf : f s = (a, s')) (h : c.Refines D (.ret a) s') :
    Plan.Moves (fun p' => c.Refines D p' s') (.once f) s s' :=
  Plan.moves_step hf h

theorem Single.refines_once {f : σ → α × σ} (hsingle : c.Single) (hret : ∀ a, c ≠ .ret a)
    (hf : ∀ t, D.Inv t → D.Evolves s t → c.run t = f t) : c.Refines D (.once f) s := by
  refine refines_of_act hret ?_
  intro t ht hst c' t' hact
  obtain ⟨a, rfl⟩ := hsingle t c' t' hact
  refine moves_once ?_ rfl
  rw [← hf t ht hst, run_of_act hact]
  rfl

/-- A call of one transaction, or one statement, is atomic. -/
theorem Single.refines (hsingle : c.Single) (s : σ) : c.Refines D c.whole s := by
  by_cases hret : ∃ a, c = .ret a
  · obtain ⟨a, rfl⟩ := hret
    rfl
  · have hret : ∀ a, c ≠ .ret a := not_exists.mp hret
    rw [whole_of_ne hret]
    exact hsingle.refines_once hret fun _ _ _ => rfl

/-- A statement that only reads, before the effect. Either the answer of the call is settled by
what it has read, or it would read the same in every later state. -/
theorem refines_once_read {f : σ → α × σ} (effect : σ → Effect ω κ) (next : σ → Call σ ω κ α)
    (hf : ∀ t, D.Inv t → D.Evolves s t → (Call.auto effect next).run t = f t)
    (hreads : ∀ t, (effect t).writes = [])
    (h : ∀ t, D.Inv t → D.Evolves s t → (∃ a, (next t).Settled D a t) ∨
      (∀ u, D.Inv u → D.Evolves t u → next u = next t) ∧
        ((∀ u, D.Inv u → D.Evolves t u → (next t).run u = f u) →
          (next t).Refines D (.once f) t)) :
    (Call.auto effect next).Refines D (.once f) s := by
  have hrun : ∀ t, (Call.auto effect next).run t = (next t).run t := by
    intro t
    rw [Call.run, hreads, applyAll_nil]
  intro t ht hst
  rw [hreads, applyAll_nil]
  rcases h t ht hst with ⟨a, hsettled⟩ | ⟨hstable, hnext⟩
  · exact moves_once ((hf t ht hst).symm.trans ((hrun t).trans (hsettled.run ht)))
      (hsettled.refines ht)
  · refine .inl ⟨rfl, hnext ?_⟩
    intro u hu htu
    rw [← hf u hu (D.trans hst htu), hrun, hstable u hu htu]

end Call

/-! ## Effects of a plan -/

namespace Plan

variable {D : Discipline σ κ} {P : α → Prop} {p : Plan σ α} {s s' : σ}

/-- From any state that `s` may evolve into, the plan changes nothing and answers what `P` holds
of. -/
def Delivers (D : Discipline σ κ) (P : α → Prop) : Plan σ α → σ → Prop
  | .ret a, _ => P a
  | .step f next, s => ∀ t, D.Inv t → D.Evolves s t →
      (f t).2 = t ∧ (next (f t).1).Delivers D P t

/-- A step of the plan that changes the state is followed by an answer that `P` holds of. -/
def Effective (D : Discipline σ κ) (P : α → Prop) : Plan σ α → σ → Prop
  | .ret _, _ => True
  | .step f next, s => ∀ t, D.Inv t → D.Evolves s t →
      (f t).2 = t ∧ (next (f t).1).Effective D P t ∨ (next (f t).1).Delivers D P (f t).2

theorem Delivers.later (h : p.Delivers D P s) (hevolves : D.Evolves s s') :
    p.Delivers D P s' := by
  cases p with
  | ret a => exact h
  | step f next => exact fun t ht hst => h t ht (D.trans hevolves hst)

theorem Effective.later (h : p.Effective D P s) (hevolves : D.Evolves s s') :
    p.Effective D P s' := by
  cases p with
  | ret a => trivial
  | step f next => exact fun t ht hst => h t ht (D.trans hevolves hst)

theorem Delivers.map {P' : β → Prop} (g : α → β) (hP : ∀ a, P a → P' (g a))
    (h : p.Delivers D P s) : (p.map g).Delivers D P' s := by
  induction p generalizing s with
  | ret a => exact hP a h
  | step f next ih => exact fun t ht hst => (h t ht hst).imp_right (ih _)

theorem Effective.map {P' : β → Prop} (g : α → β) (hP : ∀ a, P a → P' (g a))
    (h : p.Effective D P s) : (p.map g).Effective D P' s := by
  induction p generalizing s with
  | ret a => trivial
  | step f next ih =>
    exact fun t ht hst => (h t ht hst).imp (And.imp_right (ih _)) (Delivers.map g hP)

theorem Delivers.act {p' : Plan σ α} (h : p.Delivers D P s) (hinv : D.Inv s)
    (hact : p.act s = some (p', s')) : s' = s ∧ p'.Delivers D P s' := by
  cases p with
  | ret a => cases hact
  | step f next =>
    obtain ⟨rfl, rfl⟩ := Prod.mk.inj (Option.some.inj hact)
    obtain ⟨hstore, hnext⟩ := h s hinv (D.refl s)
    exact ⟨hstore, by rwa [hstore]⟩

theorem Effective.act {p' : Plan σ α} (h : p.Effective D P s) (hinv : D.Inv s)
    (hact : p.act s = some (p', s')) :
    s' = s ∧ p'.Effective D P s' ∨ p'.Delivers D P s' := by
  cases p with
  | ret a => cases hact
  | step f next =>
    obtain ⟨rfl, rfl⟩ := Prod.mk.inj (Option.some.inj hact)
    refine (h s hinv (D.refl s)).imp_left ?_
    rintro ⟨hstore, hnext⟩
    exact ⟨hstore, by rwa [hstore]⟩

theorem effective_once {f : σ → α × σ}
    (hf : ∀ t, D.Inv t → (f t).2 = t ∨ P (f t).1) : (once f).Effective D P s :=
  fun t ht _ => (hf t ht).imp (fun hstore => ⟨hstore, trivial⟩) id

end Plan

/-! ## Runs -/

/-- The interleaved clients, the calls they are linked to, and the plans that these refine. -/
structure Refining (D : Discipline σ κ) (G : ι → σ → σ → Prop) (Q : ι → α → σ → Prop)
    (sys : System ι σ ω κ α) (calls : ι → Call σ ω κ α) (plans : ι → Plan σ α) : Prop where
  linked : Linked D G Q sys calls
  refines : ∀ i, (calls i).Refines D (plans i) sys.store

namespace Refining

variable [DecidableEq ι] {D : Discipline σ κ} {G : ι → σ → σ → Prop} {Q : ι → α → σ → Prop}
  {sys sys' : System ι σ ω κ α} {calls : ι → Call σ ω κ α} {plans : ι → Plan σ α} {i : ι}

/-- One step of the system is no step, or one step of the plan of its client. -/
theorem step (h : Refining D G Q sys calls plans) {event : Event}
    (hstep : Step i event sys sys') : D.Evolves sys.store sys'.store ∧
    ((∃ calls', Refining D G Q sys' calls' plans) ∧ sys'.store = sys.store ∨
      ∃ calls' p, (plans i).act sys.store = some (p, sys'.store) ∧
        Refining D G Q sys' calls' (Function.update plans i p)) := by
  obtain ⟨calls', hlinked, hevolves, hmoves⟩ := h.linked.step hstep
  have hothers : ∀ j, (calls j).Refines D (plans j) sys'.store :=
    fun j => (h.refines j).later hevolves
  refine ⟨hevolves, ?_⟩
  rcases hmoves with ⟨hstore, rfl⟩ | ⟨c, hact, rfl, -⟩
  · exact .inl ⟨⟨calls', hlinked, hothers⟩, hstore⟩
  · rcases (h.refines i).act h.linked.inv hact with ⟨hstore, hrefines⟩ | ⟨p, hplan, hrefines⟩
    · refine .inl ⟨⟨_, hlinked, ?_⟩, hstore⟩
      intro j
      by_cases hj : j = i
      · subst hj
        rwa [Function.update_self]
      · rw [Function.update_of_ne hj]
        exact hothers j
    · refine .inr ⟨_, p, hplan, hlinked, ?_⟩
      intro j
      by_cases hj : j = i
      · subst hj
        rwa [Function.update_self, Function.update_self]
      · rw [Function.update_of_ne hj, Function.update_of_ne hj]
        exact hothers j

/-- A run of the clients is a run of their plans, whose steps are taken at steps of the same
client. -/
theorem run (h : Refining D G Q sys calls plans) {trace : List (ι × Event)}
    (hrun : Run sys trace sys') :
    ∃ calls' plans' order, Refining D G Q sys' calls' plans' ∧
      Plan.Run ⟨sys.store, plans⟩ order ⟨sys'.store, plans'⟩ ∧
        order.Sublist (trace.map Prod.fst) := by
  induction hrun with
  | nil => exact ⟨calls, plans, [], h, .nil _, .slnil⟩
  | @snoc mid sys' trace i event _ hstep ih =>
    obtain ⟨calls', plans', order, hmid, hplans, hsublist⟩ := ih
    rw [List.map_append, List.map_singleton]
    rcases (hmid.step hstep).2 with ⟨⟨calls'', hrefining⟩, hstore⟩ | ⟨calls'', p, hact, hrefining⟩
    · refine ⟨calls'', plans', order, hrefining, ?_, hsublist.trans (List.sublist_append_left _ _)⟩
      rwa [hstore]
    · exact ⟨calls'', _, order ++ [i], hrefining, .snoc hplans hact,
        hsublist.append (.refl _)⟩

omit [DecidableEq ι] in
/-- A client that has answered has come to the answer of its plan. -/
theorem answered (h : Refining D G Q sys calls plans) {a : α} (hs : sys.session i = .idle (.ret a)) :
    plans i = .ret a := by
  have hrefines := h.refines i
  rwa [h.linked.call_of_idle hs] at hrefines

/-- What a plan delivers, its client is told, and does nothing more. -/
theorem delivers {P : α → Prop} (h : Refining D G Q sys calls plans)
    (hdelivers : (plans i).Delivers D P sys.store) {trace : List (ι × Event)}
    (hrun : Run sys trace sys') : ∃ calls' plans', Refining D G Q sys' calls' plans' ∧
      (plans' i).Delivers D P sys'.store := by
  induction hrun with
  | nil => exact ⟨calls, plans, h, hdelivers⟩
  | @snoc mid sys' trace j event _ hstep ih =>
    obtain ⟨calls', plans', hmid, hdelivers'⟩ := ih
    obtain ⟨hevolves, ⟨⟨calls'', hrefining⟩, -⟩ | ⟨calls'', p, hact, hrefining⟩⟩ :=
      hmid.step hstep
    · exact ⟨calls'', plans', hrefining, hdelivers'.later hevolves⟩
    · refine ⟨calls'', _, hrefining, ?_⟩
      by_cases hj : i = j
      · subst hj
        rw [Function.update_self]
        exact (hdelivers'.act hmid.linked.inv hact).2
      · rw [Function.update_of_ne hj]
        exact hdelivers'.later hevolves

/-- Either a plan may still have its effect, or it delivers. -/
theorem effective {P : α → Prop} (h : Refining D G Q sys calls plans)
    (heffective : (plans i).Effective D P sys.store) {trace : List (ι × Event)}
    (hrun : Run sys trace sys') : ∃ calls' plans', Refining D G Q sys' calls' plans' ∧
      ((plans' i).Effective D P sys'.store ∨ (plans' i).Delivers D P sys'.store) := by
  induction hrun with
  | nil => exact ⟨calls, plans, h, .inl heffective⟩
  | @snoc mid sys' trace j event _ hstep ih =>
    obtain ⟨calls', plans', hmid, hplan⟩ := ih
    obtain ⟨hevolves, ⟨⟨calls'', hrefining⟩, -⟩ | ⟨calls'', p, hact, hrefining⟩⟩ :=
      hmid.step hstep
    · exact ⟨calls'', plans', hrefining, hplan.imp (·.later hevolves) (·.later hevolves)⟩
    · refine ⟨calls'', _, hrefining, ?_⟩
      by_cases hj : i = j
      · subst hj
        rw [Function.update_self]
        rcases hplan with heffective' | hdelivers
        · exact (heffective'.act hmid.linked.inv hact).imp_left And.right
        · exact .inr (hdelivers.act hmid.linked.inv hact).2
      · rw [Function.update_of_ne hj]
        exact hplan.imp (·.later hevolves) (·.later hevolves)

/-- After a step that changed the state. -/
theorem changed {P : α → Prop} (h : Refining D G Q sys calls plans)
    (heffective : (plans i).Effective D P sys.store) {event : Event}
    {trace : List (ι × Event)} {before after : System ι σ ω κ α} (hrun : Run sys trace before)
    (hstep : Step i event before after) (hchanged : after.store ≠ before.store) :
    ∃ calls' plans', Refining D G Q after calls' plans' ∧
      (plans' i).Delivers D P after.store := by
  obtain ⟨calls', plans', hbefore, hplan⟩ := h.effective heffective hrun
  obtain ⟨-, ⟨-, hstore⟩ | ⟨calls'', p, hact, hrefining⟩⟩ := hbefore.step hstep
  · exact absurd hstore hchanged
  · refine ⟨calls'', _, hrefining, ?_⟩
    rw [Function.update_self]
    rcases hplan with heffective' | hdelivers
    · exact (heffective'.act hbefore.linked.inv hact).resolve_left fun h => hchanged h.1
    · exact absurd (hdelivers.act hbefore.linked.inv hact).1 hchanged

/-- A client whose plan delivers changes nothing. -/
theorem silent {P : α → Prop} (h : Refining D G Q sys calls plans)
    (hdelivers : (plans i).Delivers D P sys.store) {event : Event}
    (hstep : Step i event sys sys') : sys'.store = sys.store := by
  obtain ⟨-, ⟨-, hstore⟩ | ⟨_, p, hact, -⟩⟩ := h.step hstep
  · exact hstore
  · exact (hdelivers.act h.linked.inv hact).1

end Refining

end Interbellum.Txn
