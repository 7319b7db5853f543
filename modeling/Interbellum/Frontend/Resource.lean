import Mathlib.Data.List.Induction

/-!
# Loading for a screen

A screen reads what it shows with `useResource`. Each render names what to load by its `deps`; when
they have changed, or a reload was asked for, an effect aborts the load before and starts another.
The effect runs some time after the render, and a load may be answered at any time, also after it
was aborted.

* `Resource.step`: the hook takes one event.
* `Coherent.run`: at most the last load is not aborted, and the screen is loading while it is open.
-/

namespace Interbellum.Frontend

variable {D T E : Type}

/-- A call of `load`: the signal it was given, and what its promise was settled with. -/
structure Load (D T E : Type) where
  deps : D
  aborted : Bool
  settled : Option (Except E T)

/-- `deps` and `enabled` are those of the last render, `ran` are those that the effect has last run
for, and `controller` is the load that its cleanup is going to abort. -/
structure Resource (D T E : Type) where
  deps : D
  enabled : Bool
  nonce : ℕ
  data : Option T
  error : Option E
  loading : Bool
  ran : Option (D × ℕ × Bool)
  loads : List (Load D T E)
  controller : Option ℕ
  mounted : Bool

inductive ResourceEvent (D T E : Type) where
  | render (deps : D) (enabled : Bool)
  | effects
  | settle (load : ℕ) (outcome : Except E T)
  | reload
  | set (value : T)
  | unmount

namespace Resource

/-- The first render. -/
def mount (deps : D) (enabled : Bool) : Resource D T E :=
  { deps := deps
    enabled := enabled
    nonce := 0
    data := none
    error := none
    loading := enabled
    ran := none
    loads := []
    controller := none
    mounted := true }

/-- The effect has run for the last render. -/
def Flushed (r : Resource D T E) : Prop := r.ran = some (r.deps, r.nonce, r.enabled)

instance [DecidableEq D] (r : Resource D T E) : Decidable r.Flushed :=
  inferInstanceAs (Decidable (_ = _))

/-- `controller.abort()` -/
def cleanup (r : Resource D T E) : Resource D T E :=
  match r.controller with
  | none => r
  | some i =>
    { r with
      loads := r.loads.modify i fun load => { load with aborted := true }
      controller := none }

/-- The body of the effect. -/
def start (r : Resource D T E) : Resource D T E :=
  if r.enabled then
    { r with
      loading := true
      error := none
      loads := r.loads ++ [⟨r.deps, false, none⟩]
      controller := some r.loads.length
      ran := some (r.deps, r.nonce, r.enabled) }
  else { r with loading := false, ran := some (r.deps, r.nonce, r.enabled) }

/-- The state is set unless the signal is aborted. -/
def answer (aborted : Bool) (r : Resource D T E) : Except E T → Resource D T E
  | .ok value => if aborted then r else { r with data := some value, loading := false }
  | .error err => if aborted then r else { r with error := some err, loading := false }

/-- A promise is settled once. -/
def settle (i : ℕ) (outcome : Except E T) (r : Resource D T E) : Resource D T E :=
  match r.loads[i]? with
  | some ⟨deps, aborted, none⟩ =>
    answer aborted { r with loads := r.loads.set i ⟨deps, aborted, some outcome⟩ } outcome
  | _ => r

/-- An unmounted screen has no state left to set. -/
def step [DecidableEq D] (r : Resource D T E) : ResourceEvent D T E → Resource D T E
  | .render deps enabled => if r.mounted then { r with deps := deps, enabled := enabled } else r
  | .effects => if r.mounted ∧ ¬ r.Flushed then r.cleanup.start else r
  | .settle i outcome => settle i outcome r
  | .reload => if r.mounted then { r with nonce := r.nonce + 1 } else r
  | .set value => if r.mounted then { r with data := some value, error := none } else r
  | .unmount => { r.cleanup with mounted := false }

def run [DecidableEq D] (r : Resource D T E) (events : List (ResourceEvent D T E)) :
    Resource D T E := events.foldl step r

/-- The load has neither been aborted nor settled. -/
def Open (r : Resource D T E) (i : ℕ) : Prop :=
  ∃ load, r.loads[i]? = some load ∧ load.aborted = false ∧ load.settled = none

end Resource

/-! ## What holds of every state -/

namespace Resource

/-- All loads but the one that the cleanup would abort are aborted already, that one is the last,
and while it is open the screen is loading. -/
structure Coherent (r : Resource D T E) : Prop where
  controller : ∀ i, r.controller = some i → i + 1 = r.loads.length ∧ r.mounted = true ∧
    ∃ load, r.loads[i]? = some load ∧ load.aborted = false ∧
      (∃ n, r.ran = some (load.deps, n, true)) ∧ (r.loading = true ↔ load.settled = none)
  live : ∀ i load, r.loads[i]? = some load → load.aborted = false → r.controller = some i
  idle : r.mounted = true → r.controller = none → r.ran = none ∨
    r.loading = false ∧ ∃ d n, r.ran = some (d, n, false)

theorem coherent_mount (deps : D) (enabled : Bool) :
    (mount deps enabled : Resource D T E).Coherent where
  controller := fun _ hi => (Option.some_ne_none _ hi.symm).elim
  live := fun i load hload => by simp [mount] at hload
  idle := fun _ _ => .inl rfl

/-- The fields that abort and settle leave alone. -/
structure Alike (r r' : Resource D T E) : Prop where
  deps : r'.deps = r.deps
  enabled : r'.enabled = r.enabled
  nonce : r'.nonce = r.nonce
  data : r'.data = r.data
  error : r'.error = r.error
  loading : r'.loading = r.loading
  ran : r'.ran = r.ran
  mounted : r'.mounted = r.mounted
  length : r'.loads.length = r.loads.length

variable {r : Resource D T E}

theorem cleanup_alike (r : Resource D T E) : Alike r r.cleanup := by
  unfold cleanup
  cases r.controller with
  | none => exact ⟨rfl, rfl, rfl, rfl, rfl, rfl, rfl, rfl, rfl⟩
  | some i => exact ⟨rfl, rfl, rfl, rfl, rfl, rfl, rfl, rfl, List.length_modify ..⟩

theorem cleanup_controller (r : Resource D T E) : r.cleanup.controller = none := by
  unfold cleanup
  cases h : r.controller with
  | none => exact h
  | some i => rfl

theorem Coherent.cleanup_aborted (h : r.Coherent) {i : ℕ} {load : Load D T E}
    (hload : r.cleanup.loads[i]? = some load) : load.aborted = true := by
  by_contra hlive
  rw [Bool.not_eq_true] at hlive
  unfold cleanup at hload
  cases hc : r.controller with
  | none =>
    rw [hc] at hload
    have hcontroller := h.live i load hload hlive
    rw [hc] at hcontroller
    cases hcontroller
  | some j =>
    simp only [hc, List.getElem?_modify] at hload
    cases hi : r.loads[i]? with
    | none => simp [hi] at hload
    | some before =>
      rw [hi] at hload
      have hsame : (if j = i then { before with aborted := true } else before) = load :=
        Option.some.inj hload
      by_cases hji : j = i
      · rw [if_pos hji] at hsame
        rw [← hsame] at hlive
        cases hlive
      · rw [if_neg hji] at hsame
        rw [← hsame] at hlive
        have hcontroller := h.live i before hi hlive
        rw [hc, Option.some.injEq] at hcontroller
        exact hji hcontroller

theorem start_coherent (hmounted : r.mounted = true) (hcontroller : r.controller = none)
    (haborted : ∀ (i : ℕ) (load : Load D T E), r.loads[i]? = some load → load.aborted = true) :
    r.start.Coherent := by
  unfold start
  split_ifs with henabled
  · refine ⟨?_, ?_, ?_⟩
    · intro i hi
      obtain rfl := Option.some.inj hi
      refine ⟨by simp, hmounted, ⟨r.deps, false, none⟩, by simp, rfl, ⟨r.nonce, ?_⟩, by simp⟩
      rw [henabled]
    · intro i load hload hlive
      simp only [List.getElem?_append] at hload
      split_ifs at hload with hlt
      · rw [haborted i load hload] at hlive
        cases hlive
      · have hzero : i - r.loads.length = 0 := by
          by_contra hne
          rw [List.getElem?_eq_none (by simp; omega)] at hload
          cases hload
        show some r.loads.length = some i
        congr 1
        omega
    · intro _ hnone
      cases hnone
  · refine ⟨?_, ?_, ?_⟩
    · intro i hi
      rw [hcontroller] at hi
      cases hi
    · intro i load hload hlive
      rw [haborted i load hload] at hlive
      cases hlive
    · intro _ _
      refine .inr ⟨rfl, r.deps, r.nonce, ?_⟩
      simp [henabled]

theorem Coherent.flush (h : r.Coherent) (hmounted : r.mounted = true) : r.cleanup.start.Coherent :=
  start_coherent ((cleanup_alike r).mounted.trans hmounted) (cleanup_controller r)
    fun _ _ => h.cleanup_aborted

theorem Coherent.unmount (h : r.Coherent) : { r.cleanup with mounted := false }.Coherent where
  controller := by
    intro i hi
    have hnone : r.cleanup.controller = some i := hi
    rw [cleanup_controller] at hnone
    cases hnone
  live := by
    intro i load hload hlive
    rw [h.cleanup_aborted hload] at hlive
    cases hlive
  idle := fun hmounted => (Bool.false_ne_true hmounted).elim

/-- A load is settled. Only the answer to the one that is not aborted reaches the screen. -/
theorem settle_cases (r : Resource D T E) (i : ℕ) (outcome : Except E T) :
    settle i outcome r = r ∨ ∃ load, r.loads[i]? = some load ∧ load.settled = none ∧
      settle i outcome r = answer load.aborted
        { r with loads := r.loads.set i { load with settled := some outcome } } outcome := by
  unfold settle
  split
  · rename_i deps aborted hload
    exact .inr ⟨_, hload, rfl, rfl⟩
  · exact .inl rfl

theorem answer_aborted (r : Resource D T E) (outcome : Except E T) : answer true r outcome = r := by
  cases outcome <;> rfl

/-- What an answer leaves alone. -/
theorem answer_alike (r : Resource D T E) (outcome : Except E T) :
    (answer false r outcome).loads = r.loads ∧ (answer false r outcome).controller = r.controller ∧
      (answer false r outcome).ran = r.ran ∧ (answer false r outcome).mounted = r.mounted ∧
        (answer false r outcome).loading = false := by
  cases outcome <;> exact ⟨rfl, rfl, rfl, rfl, rfl⟩

theorem Coherent.settled (h : r.Coherent) (i : ℕ) (outcome : Except E T) :
    (settle i outcome r).Coherent := by
  rcases settle_cases r i outcome with he | ⟨⟨deps, aborted, _⟩, hload, -, he⟩
  · rw [he]
    exact h
  have hlt : i < r.loads.length := (List.getElem?_eq_some_iff.mp hload).1
  rw [he]
  cases aborted with
  | true =>
    rw [answer_aborted]
    refine ⟨?_, ?_, h.idle⟩
    · intro j hj
      obtain ⟨hlength, hmounted, current, hcurrent, hlive, hran, hloading⟩ := h.controller j hj
      have hij : i ≠ j := by
        rintro rfl
        rw [← Option.some.inj (hload.symm.trans hcurrent)] at hlive
        cases hlive
      refine ⟨by rw [List.length_set]; exact hlength, hmounted, current, ?_, hlive, hran, hloading⟩
      rw [List.getElem?_set_ne hij]
      exact hcurrent
    · intro j other hother hlive
      by_cases hij : i = j
      · subst hij
        rw [List.getElem?_set_self hlt] at hother
        rw [← Option.some.inj hother] at hlive
        cases hlive
      · rw [List.getElem?_set_ne hij] at hother
        exact h.live j other hother hlive
  | false =>
    have hcontroller := h.live i _ hload rfl
    obtain ⟨hlength, hmounted, current, hcurrent, -, ⟨n, hran⟩, -⟩ := h.controller i hcontroller
    obtain rfl := Option.some.inj (hload.symm.trans hcurrent)
    obtain ⟨hloads', hcontroller', hran', hmounted', hloading'⟩ := answer_alike
      { r with loads := r.loads.set i ⟨deps, false, some outcome⟩ } outcome
    refine ⟨?_, ?_, ?_⟩
    · intro j hj
      rw [hcontroller'] at hj
      obtain rfl : i = j := Option.some.inj (hcontroller.symm.trans hj)
      rw [hloads', hmounted', hran', hloading', List.length_set]
      refine ⟨hlength, hmounted, _, List.getElem?_set_self hlt, rfl, ⟨n, hran⟩, ?_⟩
      simp
    · intro j other hother hlive
      rw [hcontroller']
      by_cases hij : i = j
      · subst hij
        exact hcontroller
      · rw [hloads', List.getElem?_set_ne hij] at hother
        exact h.live j other hother hlive
    · intro _ hnone
      rw [hcontroller', hcontroller] at hnone
      cases hnone

variable [DecidableEq D]

theorem Coherent.step (h : r.Coherent) (event : ResourceEvent D T E) :
    (r.step event).Coherent := by
  cases event with
  | render deps enabled =>
    simp only [Resource.step]
    split_ifs
    · exact ⟨h.controller, h.live, h.idle⟩
    · exact h
  | effects =>
    simp only [Resource.step]
    split_ifs with hrun
    · exact h.flush hrun.1
    · exact h
  | settle i outcome => exact h.settled i outcome
  | reload =>
    simp only [Resource.step]
    split_ifs
    · exact ⟨h.controller, h.live, h.idle⟩
    · exact h
  | set value =>
    simp only [Resource.step]
    split_ifs
    · exact ⟨h.controller, h.live, h.idle⟩
    · exact h
  | unmount => exact h.unmount

theorem run_concat (r : Resource D T E) (events : List (ResourceEvent D T E))
    (event : ResourceEvent D T E) : r.run (events ++ [event]) = (r.run events).step event := by
  rw [run, List.foldl_append]
  rfl

theorem Coherent.run (h : r.Coherent) (events : List (ResourceEvent D T E)) :
    (r.run events).Coherent := by
  induction events using List.reverseRecOn with
  | nil => exact h
  | append_singleton events event ih =>
    rw [run_concat]
    exact ih.step event

end Resource

end Interbellum.Frontend
