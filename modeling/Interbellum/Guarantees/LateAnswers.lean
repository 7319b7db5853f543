import Interbellum.Frontend.Resource

/-!
# Late and crossed answers

Answers come in any order, and a screen may name something else to load, reload, set a value or
close at any time between them.

* `Aborted.run`, `Aborted.ignored`: an aborted load stays aborted, and its answer is without effect.
* `ShowsFrom.run`: unless a value is set, the screen shows what the last load has come to.
* `current_load_shown`: what a screen shows in every run.
-/

namespace Interbellum.Frontend

variable {D T E : Type}

/-! ## Late answers -/

namespace Resource

/-- The load was aborted. -/
def Aborted (r : Resource D T E) (i : ℕ) : Prop :=
  ∃ load, r.loads[i]? = some load ∧ load.aborted = true

variable {r : Resource D T E} {i : ℕ}

theorem Aborted.cleanup (h : r.Aborted i) : r.cleanup.Aborted i := by
  obtain ⟨load, hload, haborted⟩ := h
  unfold Resource.cleanup
  cases r.controller with
  | none => exact ⟨load, hload, haborted⟩
  | some j =>
    refine ⟨if j = i then { load with aborted := true } else load, ?_, ?_⟩
    · simp only [List.getElem?_modify, hload]
      rfl
    · split_ifs
      · rfl
      · exact haborted

theorem Aborted.start (h : r.Aborted i) : r.start.Aborted i := by
  obtain ⟨load, hload, haborted⟩ := h
  have hlt : i < r.loads.length := (List.getElem?_eq_some_iff.mp hload).1
  unfold Resource.start
  split_ifs
  · refine ⟨load, ?_, haborted⟩
    simp only [List.getElem?_append_left hlt]
    exact hload
  · exact ⟨load, hload, haborted⟩

theorem Aborted.settle (h : r.Aborted i) (j : ℕ) (outcome : Except E T) :
    (Resource.settle j outcome r).Aborted i := by
  obtain ⟨load, hload, haborted⟩ := h
  rcases settle_cases r j outcome with he | ⟨other, hother, -, he⟩
  · rw [he]
    exact ⟨load, hload, haborted⟩
  · have hloads : (Resource.settle j outcome r).loads =
        r.loads.set j { other with settled := some outcome } := by
      rw [he]
      cases other.aborted <;> cases outcome <;> rfl
    rw [Aborted, hloads]
    by_cases hji : j = i
    · subst hji
      obtain rfl := Option.some.inj (hload.symm.trans hother)
      exact ⟨_, List.getElem?_set_self (List.getElem?_eq_some_iff.mp hload).1, haborted⟩
    · rw [List.getElem?_set_ne hji]
      exact ⟨load, hload, haborted⟩

variable [DecidableEq D]

theorem Aborted.step (h : r.Aborted i) (event : ResourceEvent D T E) :
    (r.step event).Aborted i := by
  cases event with
  | render deps enabled =>
    simp only [Resource.step]
    split_ifs <;> exact h
  | effects =>
    simp only [Resource.step]
    split_ifs
    · exact h.cleanup.start
    · exact h
  | settle j outcome => exact h.settle j outcome
  | reload =>
    simp only [Resource.step]
    split_ifs <;> exact h
  | set value =>
    simp only [Resource.step]
    split_ifs <;> exact h
  | unmount => exact h.cleanup

theorem Aborted.run (h : r.Aborted i) (events : List (ResourceEvent D T E)) :
    (r.run events).Aborted i := by
  induction events using List.reverseRecOn with
  | nil => exact h
  | append_singleton events event ih =>
    rw [run_concat]
    exact ih.step event

omit [DecidableEq D] in
/-- The answer to an aborted load does not reach the screen. -/
theorem Aborted.ignored (h : r.Aborted i) (outcome : Except E T) :
    (Resource.settle i outcome r).data = r.data ∧ (Resource.settle i outcome r).error = r.error ∧
      (Resource.settle i outcome r).loading = r.loading := by
  obtain ⟨load, hload, haborted⟩ := h
  rcases settle_cases r i outcome with he | ⟨other, hother, -, he⟩
  · rw [he]
    exact ⟨rfl, rfl, rfl⟩
  · obtain rfl := Option.some.inj (hload.symm.trans hother)
    rw [he, haborted, answer_aborted]
    exact ⟨rfl, rfl, rfl⟩

/-! ## The last load -/

/-- What the screen shows of a load while nothing else is shown. -/
def Shows (r : Resource D T E) : Option (Except E T) → Prop
  | none => r.error = none
  | some (.ok value) => r.data = some value ∧ r.error = none
  | some (.error err) => r.error = some err

/-- The screen shows the load that is not aborted, if it is number `n` or a later one. -/
def ShowsFrom (n : ℕ) (r : Resource D T E) : Prop :=
  ∀ i load, r.controller = some i → n ≤ i → r.loads[i]? = some load → r.Shows load.settled

omit [DecidableEq D] in
theorem showsFrom_flush (n : ℕ) (r : Resource D T E) : ShowsFrom n r.cleanup.start := by
  intro i load hcontroller _ hload
  unfold start at hcontroller hload ⊢
  split_ifs at hcontroller hload ⊢
  · obtain rfl := Option.some.inj hcontroller
    have hnew : (⟨r.cleanup.deps, false, none⟩ : Load D T E) = load := by simpa using hload
    rw [← hnew]
    rfl
  · have hnone : r.cleanup.controller = some i := hcontroller
    rw [cleanup_controller] at hnone
    cases hnone

omit [DecidableEq D] in
theorem ShowsFrom.settle {n : ℕ} (h : ShowsFrom n r) (hcoherent : r.Coherent) (i : ℕ)
    (outcome : Except E T) : ShowsFrom n (Resource.settle i outcome r) := by
  rcases settle_cases r i outcome with he | ⟨⟨deps, aborted, settled⟩, hload, hpending, he⟩
  · rw [he]
    exact h
  have hlt : i < r.loads.length := (List.getElem?_eq_some_iff.mp hload).1
  rw [he]
  cases aborted with
  | true =>
    rw [answer_aborted]
    intro j load hcontroller hle hj
    have hij : i ≠ j := by
      rintro rfl
      obtain ⟨-, -, current, hcurrent, hlive, -, -⟩ := hcoherent.controller i hcontroller
      rw [← Option.some.inj (hload.symm.trans hcurrent)] at hlive
      cases hlive
    rw [List.getElem?_set_ne hij] at hj
    exact h j load hcontroller hle hj
  | false =>
    intro j load hcontroller hle hj
    have hown := hcoherent.live i _ hload rfl
    have hij : i = j := by
      rw [(answer_alike _ _).2.1, hown] at hcontroller
      exact Option.some.inj hcontroller
    subst hij
    rw [(answer_alike _ _).1, List.getElem?_set_self hlt] at hj
    rw [← Option.some.inj hj]
    have herror : r.error = none := by
      have hshown := h i _ hown hle hload
      rw [show settled = none from hpending] at hshown
      exact hshown
    cases outcome with
    | ok value => exact ⟨rfl, herror⟩
    | error err => rfl

theorem ShowsFrom.step {n : ℕ} (h : ShowsFrom n r) (hcoherent : r.Coherent)
    {event : ResourceEvent D T E} (hset : ∀ value, event ≠ .set value) :
    ShowsFrom n (r.step event) := by
  cases event with
  | render deps enabled =>
    simp only [Resource.step]
    split_ifs <;> exact h
  | effects =>
    simp only [Resource.step]
    split_ifs
    · exact showsFrom_flush n r
    · exact h
  | settle i outcome => exact h.settle hcoherent i outcome
  | reload =>
    simp only [Resource.step]
    split_ifs <;> exact h
  | set value => exact (hset value rfl).elim
  | unmount =>
    intro i load hcontroller
    have hnone : r.cleanup.controller = some i := hcontroller
    rw [cleanup_controller] at hnone
    cases hnone

theorem ShowsFrom.run {n : ℕ} (h : ShowsFrom n r) (hcoherent : r.Coherent)
    {events : List (ResourceEvent D T E)} (hset : ∀ value, .set value ∉ events) :
    ShowsFrom n (r.run events) := by
  induction events using List.reverseRecOn with
  | nil => exact h
  | append_singleton events event ih =>
    rw [run_concat]
    refine (ih ?_).step (hcoherent.run events) ?_
    · exact fun value hmem => hset value (List.mem_append_left _ hmem)
    · rintro value rfl
      exact hset value (List.mem_append_right _ (List.mem_singleton_self _))

omit [DecidableEq D] in
/-- Loads of a state are not among those that start later. -/
theorem showsFrom_length (h : r.Coherent) : ShowsFrom r.loads.length r := by
  intro i load hcontroller hle
  have hlength := (h.controller i hcontroller).1
  omega

/-! ## Every run -/

variable {deps : D} {enabled : Bool}

theorem coherent_run (deps : D) (enabled : Bool) (events : List (ResourceEvent D T E)) :
    ((mount deps enabled).run events).Coherent := (coherent_mount deps enabled).run events

omit [DecidableEq D] in
theorem Coherent.open_controller (h : r.Coherent) (hopen : r.Open i) : r.controller = some i := by
  obtain ⟨load, hload, hlive, -⟩ := hopen
  exact h.live i load hload hlive

omit [DecidableEq D] in
theorem Coherent.loading_iff (h : r.Coherent) (hmounted : r.mounted = true) (hflushed : r.Flushed) :
    r.loading = true ↔ ∃ i, r.Open i := by
  cases hc : r.controller with
  | none =>
    refine iff_of_false ?_ ?_
    · rcases h.idle hmounted hc with hran | ⟨hloading, -⟩
      · rw [Flushed, hran] at hflushed
        cases hflushed
      · rw [hloading]
        exact Bool.false_ne_true
    · rintro ⟨i, hopen⟩
      rw [h.open_controller hopen] at hc
      cases hc
  | some i =>
    obtain ⟨-, -, load, hload, hlive, -, hloading⟩ := h.controller i hc
    rw [hloading]
    constructor
    · exact fun hpending => ⟨i, load, hload, hlive, hpending⟩
    · rintro ⟨j, hopen⟩
      obtain rfl : i = j := Option.some.inj (hc.symm.trans (h.open_controller hopen))
      obtain ⟨other, hother, -, hpending⟩ := hopen
      rwa [Option.some.inj (hload.symm.trans hother)]

omit [DecidableEq D] in
/-- When the effect has run for an enabled screen, its load is for what the screen names. -/
theorem Coherent.last_load (h : r.Coherent) (hmounted : r.mounted = true) (hflushed : r.Flushed)
    (henabled : r.enabled = true) : ∃ i load, r.controller = some i ∧ i + 1 = r.loads.length ∧
      r.loads[i]? = some load ∧ load.deps = r.deps ∧ (r.loading = true ↔ load.settled = none) := by
  cases hc : r.controller with
  | none =>
    rw [Flushed] at hflushed
    rcases h.idle hmounted hc with hran | ⟨-, d, n, hran⟩
    · rw [hran] at hflushed
      cases hflushed
    · rw [hran, henabled] at hflushed
      cases hflushed
  | some i =>
    obtain ⟨hlength, -, load, hload, -, ⟨n, hran⟩, hloading⟩ := h.controller i hc
    rw [Flushed, hran, Option.some.injEq, Prod.mk.injEq] at hflushed
    exact ⟨i, load, rfl, hlength, hload, hflushed.1, hloading⟩

/-- In every run of the hook at most one load is open, and the answer to an aborted one is without
effect whenever it comes. While the effect of the last render has run, the screen is loading exactly
when a load is open. An enabled screen that is not loading then shows how the load of what it names
ended, unless a value was set since that load was started. -/
theorem current_load_shown (deps : D) (enabled : Bool)
    (before after : List (ResourceEvent D T E)) :
    let r := (mount deps enabled : Resource D T E).run before
    let r' := r.run after
    (∀ i j, r'.Open i → r'.Open j → i = j) ∧
    (∀ i outcome, r.Aborted i → (r'.step (.settle i outcome)).data = r'.data ∧
      (r'.step (.settle i outcome)).error = r'.error ∧
        (r'.step (.settle i outcome)).loading = r'.loading) ∧
    (r'.mounted = true → r'.Flushed →
      (r'.loading = true ↔ ∃ i, r'.Open i) ∧
      (r'.enabled = true → ∃ load, r'.loads.getLast? = some load ∧ load.deps = r'.deps ∧
        (r'.loading = true ↔ load.settled = none) ∧
        ((∀ value, .set value ∉ after) → r.loads.length < r'.loads.length →
          r'.Shows load.settled))) := by
  intro r r'
  have hcoherent : r.Coherent := coherent_run deps enabled before
  have hcoherent' : r'.Coherent := hcoherent.run after
  refine ⟨?_, ?_, ?_⟩
  · intro i j hi hj
    exact Option.some.inj
      ((hcoherent'.open_controller hi).symm.trans (hcoherent'.open_controller hj))
  · exact fun i outcome haborted => (haborted.run after).ignored outcome
  · intro hmounted hflushed
    refine ⟨hcoherent'.loading_iff hmounted hflushed, ?_⟩
    intro henabled
    obtain ⟨i, load, hcontroller, hlength, hload, hdeps, hloading⟩ :=
      hcoherent'.last_load hmounted hflushed henabled
    refine ⟨load, ?_, hdeps, hloading, ?_⟩
    · rw [List.getLast?_eq_getElem?, ← hlength]
      exact hload
    · intro hset hlater
      refine (showsFrom_length hcoherent).run hcoherent hset i load hcontroller ?_ hload
      omega

/-- The screen is told to show another record while the first one is loading, and the answers come
in the wrong order. -/
theorem current_load_shown_crossed :
    let r := (mount 1 true : Resource ℕ String String).run
      [.effects, .render 2 true, .effects, .settle 1 (.ok "second"), .settle 0 (.ok "first")]
    r.data = some "second" ∧ r.error = none := by
  obtain ⟨-, -, hshown⟩ := current_load_shown 1 true
    ([.effects, .render 2 true] : List (ResourceEvent ℕ String String))
    [.effects, .settle 1 (.ok "second"), .settle 0 (.ok "first")]
  obtain ⟨-, hlast⟩ := hshown rfl rfl
  obtain ⟨load, hload, -, -, hshows⟩ := hlast rfl
  obtain rfl : ⟨2, false, some (.ok "second")⟩ = load := Option.some.inj hload
  exact hshows (by simp) (by decide)

end Resource

end Interbellum.Frontend
