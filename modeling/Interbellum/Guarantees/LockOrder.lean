import Interbellum.Guarantees.Serial
import Interbellum.Guarantees.Walks

/-!
# Concurrent decisions are serial

However the statements of decision calls interleave, the outcome is that of running the calls
one at a time, in the order in which they took their locks. A call takes effect in one piece
at its commit, or at the statement that fails; between its lock and that moment no call on
the same investigation can, and calls on different investigations do not interfere.

* `Serialized`: how the calls that took effect relate to those that hold their lock.
* `decisions_serialize`: an interleaving comes to the serial run in the order of the locks.
-/

namespace Interbellum

open InvestigationRepository
open Txn (Run Event System Session Body applyAll applyAll_nil compatible_nil_left)

/-! ## The order of the locks -/

section

variable {ι : Type} [DecidableEq ι]

/-- The sessions in the order of their first statements, by which they take their locks. -/
def lockOrder (trace : List (ι × Event)) : List ι :=
  trace.foldl (fun order e =>
    if e.2 = .statement ∧ e.1 ∉ order then order ++ [e.1] else order) []

theorem lockOrder_concat (trace : List (ι × Event)) (k : ι) (event : Event) :
    lockOrder (trace ++ [(k, event)]) =
      if event = .statement ∧ k ∉ lockOrder trace then lockOrder trace ++ [k]
      else lockOrder trace := by
  rw [lockOrder, List.foldl_append]
  rfl

end

private theorem nodup_concat {ι : Type} {l : List ι} {k : ι} (h : l.Nodup) (hk : k ∉ l) :
    (l ++ [k]).Nodup := by
  rw [← List.concat_eq_append]
  exact h.concat hk

private theorem concat_eq_append_cons {ι : Type} {l pre post : List ι} {j k : ι}
    (h : l ++ [k] = pre ++ j :: post) :
    l = pre ∧ k = j ∨ ∃ post', l = pre ++ j :: post' := by
  rcases List.eq_nil_or_concat post with rfl | ⟨post, last, rfl⟩
  · obtain ⟨rfl, hlast⟩ := List.append_inj' h rfl
    exact .inl ⟨rfl, List.singleton_inj.mp hlast⟩
  · have h' : l ++ [k] = (pre ++ j :: post) ++ [last] := by simpa using h
    exact .inr ⟨post, (List.append_inj' h' rfl).1⟩

/-! ## The first statement -/

/-- The next statement locks the investigation, or fails because it does not exist. -/
def Attempt.Opens (a : Attempt) {ε β : Type} : Body Store Write LockKey (Except ε β) → Prop
  | .ret _ => False
  | .stmt effect next => ∀ s : Store,
    ((∃ i ∈ s.investigations, i.id = a.investigationID) ∧
      (.investigation a.investigationID, .update) ∈ (effect s).locks) ∨
    (∀ i ∈ s.investigations, i.id ≠ a.investigationID) ∧ ∃ e, next s = .ret (.error e)

theorem Attempt.opens_body (a : Attempt) : a.Opens a.body.run := by
  show a.Opens (.stmt _ _)
  intro s
  cases hrow : (s.investigationRows a.investigationID).head? with
  | none =>
    refine .inr ⟨?_, ?_⟩
    · intro i hi hid
      rw [List.head?_eq_none_iff] at hrow
      have hmem : i ∈ s.investigationRows a.investigationID :=
        List.mem_filter.mpr ⟨hi, decide_eq_true hid⟩
      simp [hrow] at hmem
    · simp only [hrow]
      exact ⟨_, rfl⟩
  | some i =>
    obtain ⟨hi, hid⟩ := List.mem_filter.mp (List.mem_of_mem_head? hrow)
    refine .inl ⟨⟨i, hi, of_decide_eq_true hid⟩, ?_⟩
    simp only [hrow]
    exact List.mem_singleton_self _

/-- Neither statements of its own nor snapshots, and nothing after its transaction. -/
def Once : Session Store Write LockKey (Except AppError Reply) → Prop
  | .idle _ | .dead => True
  | .busy _ next _ _ => ∀ r, ∃ x, next r = .ret x
  | .reading _ _ _ => False

/-- A session that has not sent its first statement. -/
def Attempt.Unlocked (a : Attempt) : Session Store Write LockKey (Except AppError Reply) → Prop
  | .idle c => c = (Operation.decide a).call
  | .busy rest _ ws ls => ws = [] ∧ ls = [] ∧ a.Opens rest
  | .reading _ _ _ => False
  | .dead => True

/-! ## The invariant -/

section

variable {ι : Type} [DecidableEq ι] {a : ι → Attempt} {s : Store} {order done : List ι}
  {sys : Server ι} {calls : ι → Client} {k : ι}

/-- `order` are the sessions that have sent their first statement, and `done` those whose call
has taken effect, both in the order in which they did. -/
structure Serialized (a : ι → Attempt) (s : Store) (order : List ι) (sys : Server ι)
    (calls : ι → Client) (done : List ι) : Prop where
  tracked : Tracked s (fun k => .decide (a k)) sys calls
  store : sys.store = serial a done s
  order_nodup : order.Nodup
  done_nodup : done.Nodup
  done_subset : ∀ k ∈ done, k ∈ order
  pending : ∀ k, k ∉ done → calls k = (Operation.decide (a k)).call
  decided : ∀ pre k post, done = pre ++ k :: post →
    calls k = .ret (((a k).call.run.run (serial a pre s)).1.map .decision)
  once : ∀ k, Once (sys.session k)
  unlocked : ∀ k, k ∉ order → (a k).Unlocked (sys.session k)
  /-- A call between its lock and its effect holds the lock. -/
  holds : ∀ k ∈ order, k ∉ done →
    (.investigation (a k).investigationID, .update) ∈ (sys.session k).locks ∧
      ∃ i ∈ sys.store.investigations, i.id = (a k).investigationID
  agree : ∀ id, ∃ rest, order.filter (fun k => (a k).investigationID = id) =
    done.filter (fun k => (a k).investigationID = id) ++ rest ∧ ∀ k ∈ rest, k ∉ done

omit [DecidableEq ι] in
theorem serialized_clients (h : Reachable s) :
    Serialized a s [] (clients s fun k => .decide (a k)) (fun k => (Operation.decide (a k)).call)
      [] where
  tracked := tracked_clients h.valid _
  store := rfl
  order_nodup := List.nodup_nil
  done_nodup := List.nodup_nil
  done_subset := by simp
  pending := fun _ _ => rfl
  decided := by simp
  once := fun _ => trivial
  unlocked := fun _ _ => rfl
  holds := by simp
  agree := fun _ => ⟨[], rfl, by simp⟩

namespace Serialized

/-- A session moves on, and its call has not taken effect by that. -/
theorem stay (h : Serialized a s order sys calls done)
    {x : Session Store Write LockKey (Except AppError Reply)}
    (htracked : Tracked s (fun k => .decide (a k)) (sys.set k x) calls) (honce : Once x)
    (hunlocked : k ∉ order → (a k).Unlocked x)
    (hholds : k ∈ order → k ∉ done →
      (.investigation (a k).investigationID, .update) ∈ x.locks) :
    Serialized a s order (sys.set k x) calls done :=
  { h with
    tracked := htracked
    once := by
      intro j
      by_cases hj : j = k
      · subst hj
        rwa [System.set_self]
      · rw [System.set_of_ne _ _ hj]
        exact h.once j
    unlocked := by
      intro j hmem
      by_cases hj : j = k
      · subst hj
        rw [System.set_self]
        exact hunlocked hmem
      · rw [System.set_of_ne _ _ hj]
        exact h.unlocked j hmem
    holds := by
      intro j hmem hdone
      by_cases hj : j = k
      · subst hj
        rw [System.set_self]
        exact ⟨hholds hmem hdone, (h.holds j hmem hdone).2⟩
      · rw [System.set_of_ne _ _ hj]
        exact h.holds j hmem hdone }

/-- A session takes its lock. -/
theorem locks (h : Serialized a s order sys calls done) (hk : k ∉ order)
    {x : Session Store Write LockKey (Except AppError Reply)}
    (htracked : Tracked s (fun k => .decide (a k)) (sys.set k x) calls) (honce : Once x)
    (hlock : (.investigation (a k).investigationID, .update) ∈ x.locks)
    (hrow : ∃ i ∈ sys.store.investigations, i.id = (a k).investigationID) :
    Serialized a s (order ++ [k]) (sys.set k x) calls done :=
  have hdone : k ∉ done := fun hmem => hk (h.done_subset k hmem)
  { h with
    tracked := htracked
    order_nodup := nodup_concat h.order_nodup hk
    done_subset := fun j hj => List.mem_append_left _ (h.done_subset j hj)
    once := by
      intro j
      by_cases hj : j = k
      · subst hj
        rwa [System.set_self]
      · rw [System.set_of_ne _ _ hj]
        exact h.once j
    unlocked := by
      intro j hmem
      rw [List.mem_append, List.mem_singleton, not_or] at hmem
      rw [System.set_of_ne _ _ hmem.2]
      exact h.unlocked j hmem.1
    holds := by
      intro j hmem hj'
      by_cases hj : j = k
      · subst hj
        rw [System.set_self]
        exact ⟨hlock, hrow⟩
      · rw [System.set_of_ne _ _ hj]
        refine h.holds j ?_ hj'
        rcases List.mem_append.mp hmem with hmem | hmem
        · exact hmem
        · exact absurd (List.mem_singleton.mp hmem) hj
    agree := by
      intro id
      obtain ⟨rest, horder, hrest⟩ := h.agree id
      refine ⟨rest ++ [k].filter (fun k => (a k).investigationID = id), ?_, ?_⟩
      · rw [List.filter_append, horder, List.append_assoc]
      · intro j hj
        rcases List.mem_append.mp hj with hj | hj
        · exact hrest j hj
        · rwa [List.mem_singleton.mp (List.mem_filter.mp hj).1] }

/-- Of the sessions on one investigation, at most one is between its lock and its effect. -/
theorem alone (h : Serialized a s order sys calls done) {j : ι} (hj : j ∈ order) (hk : k ∈ order)
    (hj' : j ∉ done) (hk' : k ∉ done)
    (hid : (a j).investigationID = (a k).investigationID) : j = k := by
  by_contra hne
  have hlock := (h.holds j hj hj').1
  rw [hid] at hlock
  have hfree := h.tracked.exclusive j k hne _ hlock _ (h.holds k hk hk').1 rfl
  cases hfree

omit [DecidableEq ι] in
/-- The calls on an investigation that have their lock and have not taken effect. -/
theorem waiting (h : Serialized a s order sys calls done) (id : UUID) :
    ∃ rest, order.filter (fun j => (a j).investigationID = id) =
      done.filter (fun j => (a j).investigationID = id) ++ rest ∧
        ∀ j ∈ rest, j ∉ done ∧ j ∈ order ∧ (a j).investigationID = id := by
  obtain ⟨rest, hfilter, hrest⟩ := h.agree id
  refine ⟨rest, hfilter, ?_⟩
  intro j hj
  have hmem := List.mem_append_right (done.filter fun j => (a j).investigationID = id) hj
  rw [← hfilter, List.mem_filter] at hmem
  exact ⟨hrest j hj, hmem.1, of_decide_eq_true hmem.2⟩

/-- A call can take effect when its session holds the lock, or nobody has it. -/
def Turn (a : ι → Attempt) (k : ι) (order done order' : List ι) : Prop :=
  k ∈ order ∧ order' = order ∨ k ∉ order ∧ order' = order ++ [k] ∧
    ∀ j ∈ order, j ∉ done → (a j).investigationID ≠ (a k).investigationID

/-- The call that takes effect is the next one of those on its investigation. -/
theorem agree_concat (h : Serialized a s order sys calls done) (hdone : k ∉ done)
    {order' : List ι} (hturn : Turn a k order done order') (id : UUID) :
    ∃ rest, order'.filter (fun j => (a j).investigationID = id) =
      (done ++ [k]).filter (fun j => (a j).investigationID = id) ++ rest ∧
        ∀ j ∈ rest, j ∉ done ++ [k] := by
  obtain ⟨rest, hfilter, hrest⟩ := h.waiting id
  by_cases hid : (a k).investigationID = id
  · subst hid
    have hself : [k].filter (fun j => (a j).investigationID = (a k).investigationID) = [k] := by
      simp
    refine ⟨[], ?_, by simp⟩
    rw [List.append_nil, List.filter_append, hself]
    rcases hturn with ⟨hk, rfl⟩ | ⟨-, rfl, hfree⟩
    · -- of the calls that hold the lock there is `k` only
      have hmem : k ∈ order'.filter fun j => (a j).investigationID = (a k).investigationID :=
        List.mem_filter.mpr ⟨hk, decide_eq_true rfl⟩
      have hnodup := h.order_nodup.filter fun j => (a j).investigationID = (a k).investigationID
      rw [hfilter] at hmem hnodup
      have hkrest : k ∈ rest := (List.mem_append.mp hmem).resolve_left fun hkdone =>
        hdone (List.mem_filter.mp hkdone).1
      have honly : rest.Perm [k] := by
        rw [List.perm_ext_iff_of_nodup hnodup.of_append_right (List.nodup_singleton k)]
        intro j
        rw [List.mem_singleton]
        constructor
        · intro hj
          obtain ⟨hj', hjorder, hjid⟩ := hrest j hj
          exact h.alone hjorder hk hj' hdone hjid
        · rintro rfl
          exact hkrest
      rw [hfilter, List.perm_singleton.mp honly]
    · have hnone : rest = [] := List.eq_nil_iff_forall_not_mem.mpr fun j hj =>
        hfree j (hrest j hj).2.1 (hrest j hj).1 (hrest j hj).2.2
      rw [List.filter_append, hself, hfilter, hnone, List.append_nil]
  · have hnone : [k].filter (fun j => (a j).investigationID = id) = [] := by simp [hid]
    refine ⟨rest, ?_, ?_⟩
    · rw [List.filter_append, hnone, List.append_nil, ← hfilter]
      rcases hturn with ⟨-, rfl⟩ | ⟨-, rfl, -⟩
      · rfl
      · rw [List.filter_append, hnone, List.append_nil]
    · intro j hj hmem
      rcases List.mem_append.mp hmem with hmem | hmem
      · exact (hrest j hj).1 hmem
      · rw [List.mem_singleton.mp hmem] at hj
        exact hid (hrest k hj).2.2

/-- A call takes effect, at its commit or at the statement that fails. -/
theorem takes_effect (h : Serialized a s order sys calls done) {event : Event} {sys' : Server ι}
    {c : Client} {order' : List ι} (hstep : Txn.Step k event sys sys')
    (htracked : Tracked s (fun k => .decide (a k)) sys' (Function.update calls k c))
    (hevolves : Evolves sys.store sys'.store) (hact : (calls k).act sys.store = some (c, sys'.store))
    (honce : Once (sys'.session k)) (hturn : Turn a k order done order') :
    Serialized a s order' sys' (Function.update calls k c) (done ++ [k]) :=
  have hdone : k ∉ done := by
    intro hmem
    obtain ⟨pre, post, hsplit⟩ := List.append_of_mem hmem
    rw [h.decided pre k post hsplit] at hact
    cases hact
  have hdecides : c = .ret (((a k).call.run.run sys.store).1.map .decision) ∧
      sys'.store = ((a k).call.run.run sys.store).2 := by
    rw [h.pending k hdone] at hact
    exact act_decide hact
  have hmem : ∀ j, j ∈ order' ↔ j ∈ order ∨ j = k := by
    intro j
    rcases hturn with ⟨hk, rfl⟩ | ⟨-, rfl, -⟩
    · exact ⟨.inl, fun hj => hj.elim id fun hj => hj ▸ hk⟩
    · rw [List.mem_append, List.mem_singleton]
  { tracked := htracked
    store := by rw [hdecides.2, h.store, serial_concat]
    order_nodup := by
      rcases hturn with ⟨-, rfl⟩ | ⟨hk, rfl, -⟩
      · exact h.order_nodup
      · exact nodup_concat h.order_nodup hk
    done_nodup := nodup_concat h.done_nodup hdone
    done_subset := by
      intro j hj
      rw [hmem]
      rcases List.mem_append.mp hj with hj | hj
      · exact .inl (h.done_subset j hj)
      · exact .inr (List.mem_singleton.mp hj)
    pending := by
      intro j hj
      rw [List.mem_append, List.mem_singleton, not_or] at hj
      rw [Function.update_of_ne hj.2]
      exact h.pending j hj.1
    decided := by
      intro pre j post hsplit
      rcases concat_eq_append_cons hsplit with ⟨rfl, rfl⟩ | ⟨post', hsplit'⟩
      · rw [Function.update_self, hdecides.1, h.store]
      · have hne : j ≠ k := fun hj => hdone (by simp [hsplit', hj])
        rw [Function.update_of_ne hne]
        exact h.decided pre j post' hsplit'
    once := by
      intro j
      by_cases hj : j = k
      · exact hj ▸ honce
      · rw [hstep.session_of_ne hj]
        exact h.once j
    unlocked := by
      intro j hj
      rw [hmem, not_or] at hj
      rw [hstep.session_of_ne hj.2]
      exact h.unlocked j hj.1
    holds := by
      intro j hj hj'
      rw [List.mem_append, List.mem_singleton, not_or] at hj'
      obtain ⟨hlock, i, hi, hid⟩ := h.holds j (((hmem j).mp hj).resolve_right hj'.2) hj'.1
      obtain ⟨i', hi', hid', -⟩ := hevolves.investigations i hi
      rw [hstep.session_of_ne hj'.2]
      exact ⟨hlock, i', hi', hid'.trans hid⟩
    agree := h.agree_concat hdone hturn }

omit [DecidableEq ι] in
theorem answered (h : Serialized a s order sys calls done) (hk : k ∈ done) :
    ∃ x, calls k = .ret x := by
  obtain ⟨pre, post, hsplit⟩ := List.append_of_mem hk
  exact ⟨_, h.decided pre k post hsplit⟩

omit [DecidableEq ι] in
/-- A call that is one transaction has not taken effect. -/
theorem undecided (h : Serialized a s order sys calls done) {ε β : Type}
    {body : Body Store Write LockKey (Except ε β)} {next : Except ε β → Client}
    (hcall : calls k = .tx body next) : k ∉ done := by
  intro hk
  obtain ⟨x, hx⟩ := h.answered hk
  exact nomatch hcall.symm.trans hx

omit [DecidableEq ι] in
/-- A call is a transaction or an answer. -/
theorem plain (h : Serialized a s order sys calls done) (k : ι) :
    (∃ x, calls k = .ret x) ∨ calls k = (Operation.decide (a k)).call := by
  by_cases hk : k ∈ done
  · exact .inl (h.answered hk)
  · exact .inr (h.pending k hk)

theorem step_begin (h : Serialized a s order sys calls done) {ε β : Type}
    {body : Body Store Write LockKey (Except ε β)} {next : Except ε β → Client}
    (hs : sys.session k = .idle (.tx body next)) :
    Serialized a s order (sys.set k (.busy body next [] [])) calls done := by
  have hcall := h.tracked.call_of_idle hs
  have hdone := h.undecided hcall
  have hk : k ∉ order := by
    intro hk
    have hlock := (h.holds k hk hdone).1
    rw [hs] at hlock
    cases hlock
  rw [h.pending k hdone, decide_call] at hcall
  cases hcall
  refine h.stay (h.tracked.begin_body hs) (fun r => ⟨_, rfl⟩) ?_ (fun hk' => absurd hk' hk)
  exact fun _ => ⟨rfl, rfl, (a k).opens_body⟩

/-- The first statement takes the lock, or fails. -/
theorem step_first (h : Serialized a s order sys calls done) {ε β : Type}
    {effect : Store → Txn.Effect Write LockKey}
    {rest : Store → Body Store Write LockKey (Except ε β)} {next : Except ε β → Client}
    {ws : List Write} {ls : Txn.Locks LockKey}
    (hs : sys.session k = .busy (.stmt effect rest) next ws ls)
    (hgrants : sys.Grants k (effect (applyAll ws sys.store)).locks) (hk : k ∉ order) :
    ∃ calls' done', Serialized a s (order ++ [k]) (sys.set k (.busy (rest (applyAll ws sys.store))
      next (ws ++ (effect (applyAll ws sys.store)).writes)
      (ls ++ (effect (applyAll ws sys.store)).locks))) calls' done' := by
  have hstep := Txn.Step.statement hs hgrants
  have honce := h.once k
  have hunlocked := h.unlocked k hk
  have hdone : k ∉ done := fun hmem => hk (h.done_subset k hmem)
  obtain ⟨calls', htracked, hmoves⟩ := h.tracked.statement hs hgrants
  rw [hs] at honce hunlocked
  obtain ⟨rfl, rfl, hopens⟩ := hunlocked
  rcases hopens sys.store with ⟨hrow, hlock⟩ | ⟨hmissing, e, he⟩
  · rcases hmoves with ⟨-, rfl⟩ | ⟨c, hact, rfl, -⟩
    · exact ⟨_, _, h.locks hk htracked honce hlock hrow⟩
    · refine ⟨_, _, h.takes_effect hstep htracked (Evolves.refl _) hact ?_ (.inr ⟨hk, rfl, ?_⟩)⟩
      · rw [System.set_self]
        exact honce
      · intro j hj hj' hid
        have hne : j ≠ k := fun hjk => hk (hjk ▸ hj)
        have hheld := (h.holds j hj hj').1
        rw [hid] at hheld
        have hfree := hgrants j hne _ hlock _ hheld rfl
        cases hfree
  · rcases hmoves with ⟨-, rfl⟩ | ⟨c, hact, rfl, -⟩
    · -- the call would have failed without running
      have hsim := htracked.sim k
      rw [System.set_self, applyAll_nil, he, h.pending k hdone, decide_call] at hsim
      rcases hsim with ⟨body, hcall, hreaches⟩ | ⟨e', -, hcall⟩
      · have hbody := hreaches.of_error
        cases hcall
        have hopens := (a k).opens_body
        rw [hbody] at hopens
        exact absurd hopens id
      · obtain ⟨x, hx⟩ := honce (.error e')
        rw [hx] at hcall
        cases hcall
    · refine ⟨_, _, h.takes_effect hstep htracked (Evolves.refl _) hact ?_ (.inr ⟨hk, rfl, ?_⟩)⟩
      · rw [System.set_self]
        exact honce
      · intro j hj hj' hid
        obtain ⟨-, i, hi, hi'⟩ := h.holds j hj hj'
        exact hmissing i hi (hi'.trans hid)

theorem step_later (h : Serialized a s order sys calls done) {ε β : Type}
    {effect : Store → Txn.Effect Write LockKey}
    {rest : Store → Body Store Write LockKey (Except ε β)} {next : Except ε β → Client}
    {ws : List Write} {ls : Txn.Locks LockKey}
    (hs : sys.session k = .busy (.stmt effect rest) next ws ls)
    (hgrants : sys.Grants k (effect (applyAll ws sys.store)).locks) (hk : k ∈ order) :
    ∃ calls' done', Serialized a s order (sys.set k (.busy (rest (applyAll ws sys.store))
      next (ws ++ (effect (applyAll ws sys.store)).writes)
      (ls ++ (effect (applyAll ws sys.store)).locks))) calls' done' := by
  have hstep := Txn.Step.statement hs hgrants
  have honce := h.once k
  obtain ⟨calls', htracked, hmoves⟩ := h.tracked.statement hs hgrants
  rw [hs] at honce
  rcases hmoves with ⟨-, rfl⟩ | ⟨c, hact, rfl, -⟩
  · refine ⟨_, _, h.stay htracked honce (fun hk' => absurd hk hk') ?_⟩
    intro _ hdone
    have hlock := (h.holds k hk hdone).1
    rw [hs] at hlock
    exact List.mem_append_left _ hlock
  · refine ⟨_, _, h.takes_effect hstep htracked (Evolves.refl _) hact ?_ (.inl ⟨hk, rfl⟩)⟩
    rw [System.set_self]
    exact honce

omit [DecidableEq ι] in
/-- A transaction ends after its first statement only. -/
theorem ends (h : Serialized a s order sys calls done) {ε β : Type} {r : Except ε β}
    {next : Except ε β → Client} {ws : List Write} {ls : Txn.Locks LockKey}
    (hs : sys.session k = .busy (.ret r) next ws ls) : k ∈ order := by
  by_contra hk
  have hunlocked := h.unlocked k hk
  rw [hs] at hunlocked
  exact hunlocked.2.2

theorem step_commit (h : Serialized a s order sys calls done) {ε β : Type} {b : β}
    {next : Except ε β → Client} {ws : List Write} {ls : Txn.Locks LockKey}
    (hs : sys.session k = .busy (.ret (.ok b)) next ws ls) :
    ∃ calls' done', Serialized a s order
      (sys.put k (.idle (next (.ok b))) (applyAll ws sys.store)) calls' done' := by
  obtain ⟨calls', htracked, hevolves, hmoves⟩ := h.tracked.commit hs
  have honce := h.once k
  rw [hs] at honce
  rcases hmoves with ⟨-, rfl⟩ | ⟨c, hact, rfl, -⟩
  · have hcall := htracked.call_of_idle (System.put_self ..)
    have hsim := h.tracked.sim k
    obtain ⟨x, hx⟩ := honce (.ok b)
    rw [hs] at hsim
    rcases hsim with ⟨body, hbody, -⟩ | ⟨e, he, -⟩
    · rw [hx, hbody] at hcall
      cases hcall
    · cases he
  · refine ⟨_, _, h.takes_effect (.commit hs) htracked hevolves hact ?_ (.inl ⟨h.ends hs, rfl⟩)⟩
    rw [System.put_self]
    trivial

theorem step_rollback (h : Serialized a s order sys calls done) {ε β : Type} {e : ε}
    {next : Except ε β → Client} {ws : List Write} {ls : Txn.Locks LockKey}
    (hs : sys.session k = .busy (.ret (.error e)) next ws ls) :
    ∃ calls' done', Serialized a s order (sys.set k (.idle (next (.error e)))) calls' done' := by
  obtain ⟨calls', htracked, hmoves⟩ := h.tracked.rollback hs
  have honce := h.once k
  rw [hs] at honce
  rcases hmoves with ⟨-, rfl⟩ | ⟨c, hact, rfl, -⟩
  · have hcall := htracked.call_of_idle (System.set_self ..)
    obtain ⟨x, hx⟩ := honce (.error e)
    refine ⟨_, _, h.stay htracked trivial (fun hk => absurd (h.ends hs) hk) ?_⟩
    intro _ hdone
    rw [h.pending k hdone, decide_call, hx] at hcall
    cases hcall
  · refine ⟨_, _, h.takes_effect (.rollback hs) htracked (Evolves.refl _) hact ?_
      (.inl ⟨h.ends hs, rfl⟩)⟩
    rw [System.set_self]
    trivial

/-- The invariant is kept by every step, unless a session dies that has its lock. -/
theorem step (h : Serialized a s order sys calls done) {event : Event} {sys' : Server ι}
    (hstep : Txn.Step k event sys sys') (halive : k ∈ order → sys'.session k ≠ .dead) :
    ∃ calls' done', Serialized a s
      (if event = .statement ∧ k ∉ order then order ++ [k] else order) sys' calls' done' := by
  have hplain := h.plain k
  cases hstep with
  | begin hs => exact ⟨_, _, h.step_begin hs⟩
  | statement hs hgrants =>
    by_cases hk : k ∈ order
    · rw [if_neg (fun hfirst => hfirst.2 hk)]
      exact h.step_later hs hgrants hk
    · rw [if_pos ⟨rfl, hk⟩]
      exact h.step_first hs hgrants hk
  | commit hs => exact h.step_commit hs
  | rollback hs => exact h.step_rollback hs
  | auto hs =>
    rw [h.tracked.call_of_idle hs, decide_call] at hplain
    rcases hplain with ⟨x, hx⟩ | hx <;> cases hx
  | beginSnapshot hs =>
    rw [h.tracked.call_of_idle hs, decide_call] at hplain
    rcases hplain with ⟨x, hx⟩ | hx <;> cases hx
  | read hs =>
    have honce := h.once k
    rw [hs] at honce
    exact absurd honce id
  | finish hs =>
    have honce := h.once k
    rw [hs] at honce
    exact absurd honce id
  | crash =>
    have hk : k ∉ order := fun hk => halive hk (System.set_self ..)
    have htracked := h.tracked.stay (i := k) (a := .dead) (fun _ _ => compatible_nil_left _) trivial
    exact ⟨_, _, h.stay htracked trivial (fun _ => trivial) (fun hk' => absurd hk' hk)⟩

end Serialized

theorem Reachable.serialized (h : Reachable s) {trace : List (ι × Event)}
    (hrun : Run (clients s fun k => .decide (a k)) trace sys)
    (halive : ∀ k ∈ lockOrder trace, sys.session k ≠ .dead) :
    ∃ calls done, Serialized a s (lockOrder trace) sys calls done := by
  induction hrun with
  | nil => exact ⟨_, _, serialized_clients h⟩
  | @snoc mid sys' trace k event hrun hstep ih =>
    have hmem : ∀ j ∈ lockOrder trace, j ∈ lockOrder (trace ++ [(k, event)]) := by
      intro j hj
      rw [lockOrder_concat]
      split
      · exact List.mem_append_left _ hj
      · exact hj
    have halive' : ∀ j ∈ lockOrder trace, mid.session j ≠ .dead := by
      intro j hj hdead
      rcases (Run.single hstep).ended (.inl hdead) with hsame | hdead'
      · exact halive j (hmem j hj) (hsame.trans hdead)
      · exact halive j (hmem j hj) hdead'
    obtain ⟨calls, done, hserialized⟩ := ih halive'
    rw [lockOrder_concat]
    exact hserialized.step hstep fun hk => halive k (hmem k hk)

/-! ## Runs in which all calls have come to an end -/

namespace Serialized

omit [DecidableEq ι] in
/-- A call that has its lock and an answer has taken effect. -/
theorem ended (h : Serialized a s order sys calls done) (hk : k ∈ order)
    {r : Except AppError Reply} (hanswer : sys.session k = .idle (.ret r)) : k ∈ done := by
  by_contra hdone
  have hlock := (h.holds k hk hdone).1
  rw [hanswer] at hlock
  cases hlock

omit [DecidableEq ι] in
theorem sent (h : Serialized a s order sys calls done) {r : Except AppError Reply}
    (hanswer : sys.session k = .idle (.ret r)) : k ∈ order := by
  by_contra hk
  have hunlocked := h.unlocked k hk
  rw [hanswer] at hunlocked
  cases hunlocked

omit [DecidableEq ι] in
theorem agrees (h : Serialized a s order sys calls done)
    (hended : ∀ k ∈ order, ∃ r, sys.session k = .idle (.ret r)) : Agree a order done := by
  intro id
  obtain ⟨rest, hfilter, hrest⟩ := h.waiting id
  have hnone : rest = [] := by
    rw [List.eq_nil_iff_forall_not_mem]
    intro j hj
    obtain ⟨hj', hjorder, -⟩ := hrest j hj
    obtain ⟨r, hr⟩ := hended j hjorder
    exact hj' (h.ended hjorder hr)
  rw [hfilter, hnone, List.append_nil]

omit [DecidableEq ι] in
theorem answers (h : Serialized a s order sys calls done) (hs : Reachable s) (hdrawn : Drawn a s)
    (hended : ∀ k ∈ order, ∃ r, sys.session k = .idle (.ret r)) {pre post : List ι}
    (hsplit : order = pre ++ k :: post) : sys.session k =
      .idle (.ret (((a k).call.run.run (serial a pre s)).1.map .decision)) := by
  have hk : k ∈ order := hsplit ▸ List.mem_append_right _ List.mem_cons_self
  obtain ⟨r, hr⟩ := hended k hk
  obtain ⟨pre', post', hsplit'⟩ := List.append_of_mem (h.ended hk hr)
  have hcall := h.tracked.call_of_idle hr
  rw [h.decided pre' k post' hsplit'] at hcall
  rw [hr, ← hcall]
  -- among the calls on its investigation, the call has the same ones before it in both orders
  have hagree := h.agrees hended (a k).investigationID
  have hnodup := hsplit ▸ h.order_nodup
  have hnodup' := hsplit' ▸ h.done_nodup
  have hpre : k ∉ pre := fun hmem => (List.nodup_append.mp hnodup).2.2 k hmem k
    List.mem_cons_self rfl
  have hpost : k ∉ post := (List.nodup_cons.mp hnodup.of_append_right).1
  have hpre' : k ∉ pre' := fun hmem => (List.nodup_append.mp hnodup').2.2 k hmem k
    List.mem_cons_self rfl
  have hself : ∀ l : List ι, (k :: l).filter (fun j => (a j).investigationID =
      (a k).investigationID) = k :: l.filter fun j => (a j).investigationID =
      (a k).investigationID := fun l => List.filter_cons_of_pos (decide_eq_true rfl)
  rw [hsplit, hsplit', List.filter_append, List.filter_append, hself, hself] at hagree
  have hsame := ((List.append_cons_inj_of_notMem
    (fun hmem => hpre (List.mem_filter.mp hmem).1)
    (fun hmem => hpost (List.mem_filter.mp hmem).1)).mp hagree).1
  rw [serial_result hs hdrawn hnodup'.of_append_left hnodup.of_append_left hpre' hpre hsame.symm]

omit [DecidableEq ι] in
theorem rows (h : Serialized a s order sys calls done) (hs : Reachable s) (hdrawn : Drawn a s)
    (hended : ∀ k ∈ order, ∃ r, sys.session k = .idle (.ret r)) :
    SameRows sys.store (serial a order s) := by
  rw [h.store]
  refine serial_congr hs hdrawn h.done_nodup h.order_nodup ?_
  exact fun id => (h.agrees hended id).symm

omit [DecidableEq ι] in
/-- A call that was not a replay has recorded a step at the node its edge leaves. -/
theorem recorded (h : Serialized a s order sys calls done) (hs : Reachable s) {d : DecisionResult}
    (hanswer : sys.session k = .idle (.ret (.ok (.decision d)))) (hfresh : d.replayed = false)
    {e : EdgeRow} (he : e ∈ s.edges) (hid : e.edge.id = (a k).input.edgeID) :
    ∃ r ∈ sys.store.stepsOf (a k).investigationID, r.id = (a k).stepID ∧
      r.nodeID = e.edge.fromNodeID := by
  have hvalid : Valid sys.store := h.tracked.inv
  obtain ⟨d', hd, t, ws, -, -, haccepts, hlater⟩ := h.tracked.answer hanswer
  cases hd
  cases haccepts with
  | replay => cases hfresh
  | @advance i next edge step hiid hadvances hedge _ =>
    have hmem : (a k).row t i edge ∈ sys.store.stepsOf (a k).investigationID := by
      rw [← hiid]
      exact (hlater.steps _).subset hadvances.mem_stepsOf
    refine ⟨_, hmem, rfl, ?_⟩
    obtain ⟨j, hj, hjid⟩ := hvalid.owner hmem
    obtain ⟨v, root, -, -, hwalk⟩ := (hvalid.consistent j hj).walk
    rw [hjid] at hwalk
    obtain ⟨-, e', he', heid, hfrom, -⟩ := hwalk.leaves _ (List.mem_map_of_mem hmem)
    obtain ⟨row, hrow, -, rfl⟩ := mem_edgesOf.mp he'
    have hedges := (serial_tables (a := a) hs done).2.2.2.1
    rw [h.store, hedges] at hrow
    have hrowid : row.edge.id = (a k).input.edgeID := heid.trans hedge
    obtain rfl := List.inj_on_of_nodup_map hs.valid.edge_ids hrow he (hrowid.trans hid.symm)
    exact hfrom.symm

end Serialized

/-- Decision calls that interleave, and have all come to an end, have answered and recorded
what they would have if each had run alone, in the order of their first statements. Of two
calls whose edges leave the same node, at most one was not a replay and took effect. -/
theorem decisions_serialize (h : Reachable s) (hdrawn : Drawn a s) {trace : List (ι × Event)}
    (hrun : Run (clients s fun k => .decide (a k)) trace sys)
    (hended : ∀ k ∈ lockOrder trace, ∃ r, sys.session k = .idle (.ret r)) :
    (∀ k r, sys.session k = .idle (.ret r) → k ∈ lockOrder trace) ∧
    (∀ pre k post, lockOrder trace = pre ++ k :: post → sys.session k =
      .idle (.ret (((a k).call.run.run (serial a pre s)).1.map .decision))) ∧
    SameRows sys.store (serial a (lockOrder trace) s) ∧
    ∀ k k' d d', k ≠ k' → (a k).investigationID = (a k').investigationID →
      sys.session k = .idle (.ret (.ok (.decision d))) →
      sys.session k' = .idle (.ret (.ok (.decision d'))) →
      d.replayed = false → d'.replayed = false →
      ∀ e ∈ s.edges, ∀ e' ∈ s.edges, e.edge.id = (a k).input.edgeID →
        e'.edge.id = (a k').input.edgeID → e.edge.fromNodeID ≠ e'.edge.fromNodeID := by
  obtain ⟨calls, done, hserialized⟩ := h.serialized hrun fun k hk hdead => by
    obtain ⟨r, hr⟩ := hended k hk
    exact nomatch hdead.symm.trans hr
  refine ⟨fun k r hr => hserialized.sent hr, ?_, hserialized.rows h hdrawn hended, ?_⟩
  · exact fun pre k post hsplit => hserialized.answers h hdrawn hended hsplit
  · intro k k' d d' hne hid hanswer hanswer' hfresh hfresh' e he e' he' heid heid' hfrom
    obtain ⟨r, hr, hrid, hnode⟩ := hserialized.recorded h hanswer hfresh he heid
    obtain ⟨r', hr', hrid', hnode'⟩ := hserialized.recorded h hanswer' hfresh' he' heid'
    have hvalid : Valid sys.store := hserialized.tracked.inv
    obtain ⟨i, hi, hiid⟩ := hvalid.owner hr
    have hnodup := (hvalid.consistent i hi).visited_nodup hvalid.toDesign
    rw [visitedBy_eq, hiid] at hnodup
    rw [← hid] at hr'
    obtain rfl : r = r' := List.inj_on_of_nodup_map hnodup.of_append_left hr hr'
      (hnode.trans (hfrom.trans hnode'.symm))
    exact hne (hdrawn.distinct k k' (hrid.symm.trans hrid'))

end

/-- The first two select edges of the root, the third one selects the edge after the first. -/
def Triage.rivals (k : Fin 3) : Attempt := Triage.attempt (5 + k) (20 + k) none

/-- They begin in the order 2, 1, 0, and lock in the order 0, 1, 2, each waiting for the one before
it. The second one finds that its edge leaves another node by then. -/
theorem decisions_serialize_triage : ∃ trace sys,
    Run (clients Triage.started fun k => .decide (Triage.rivals k)) trace sys ∧
      (trace.take 3).map Prod.fst = [2, 1, 0] ∧ lockOrder trace = [0, 1, 2] ∧
      SameRows sys.store (serial Triage.rivals [0, 1, 2] Triage.started) ∧
      sys.session 1 = .idle (.ret (((Triage.rivals 1).call.run.run
        (serial Triage.rivals [0] Triage.started)).1.map .decision)) ∧
      ¬ ∃ d, sys.session 1 = .idle (.ret (.ok (.decision d))) ∧ d.replayed = false := by
  have hdrawn : Drawn Triage.rivals Triage.started := by
    have hsteps : Triage.started.steps = [] := by decide +kernel
    refine ⟨by simp [hsteps], ?_⟩
    exact (by decide : ∀ k k', (Triage.rivals k).stepID = (Triage.rivals k').stepID → k = k')
  obtain ⟨trace, sys, hrun, hbegun, hlocked, ⟨d, hfirst, happlied⟩, hanswered⟩ : ∃ trace sys,
      Run (clients Triage.started fun k => .decide (Triage.rivals k)) trace sys ∧
      (trace.take 3).map Prod.fst = [2, 1, 0] ∧ lockOrder trace = [0, 1, 2] ∧
      (∃ d : DecisionResult, (sys.session 0).answer? = some (.ok (.decision d)) ∧
        d.replayed = false) ∧
      ∀ k, (sys.session k).answer?.isSome = true := by
    refine ⟨_, _, Txn.run_follow ([2, 1, 0] ++ (List.replicate 14 [0, 1, 2]).flatten) _,
      by decide +kernel, by decide +kernel, ?_, by decide +kernel⟩
    exact ⟨⟨⟨4, 3, 2, .inProgress, 11, 10, none, none⟩,
      ⟨5, 4, 2, 1, 10, 20, ⟨.human, none⟩, none, [], none, 11⟩, false⟩, by decide +kernel, rfl⟩
  have hended : ∀ k, ∃ r, sys.session k = .idle (.ret r) := by
    intro k
    obtain ⟨r, hr⟩ := Option.isSome_iff_exists.mp (hanswered k)
    exact ⟨r, Txn.Session.eq_of_answer? hr⟩
  obtain ⟨-, hserial, hrows, hrivals⟩ := decisions_serialize Triage.reachable_started hdrawn hrun
    fun k _ => hended k
  rw [hlocked] at hserial hrows
  refine ⟨trace, sys, hrun, hbegun, hlocked, hrows, hserial [0] 1 [2] rfl, ?_⟩
  rintro ⟨d', hsecond, happlied'⟩
  have hedges : ⟨2, ⟨20, 10, 11, "yes", none, 0⟩⟩ ∈ Triage.started.edges ∧
      ⟨2, ⟨21, 10, 12, "no", none, 1⟩⟩ ∈ Triage.started.edges := by decide +kernel
  exact hrivals 0 1 d d' (by decide) rfl (Txn.Session.eq_of_answer? hfirst) hsecond happlied
    happlied' _ hedges.1 _ hedges.2 rfl rfl rfl

end Interbellum
