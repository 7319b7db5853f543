import Interbellum.Txn.Interleaving

/-!
# What programs may write

`Body.Writes P` and `Call.Writes P` say that no statement of a program makes a write without
`P`, whatever the statements before it have answered. The committed state of a run is then
only ever changed by such writes, each made by the client that may make it.

* `Step.writes`: one step, and what it does to the committed state.
* `Run.preserves`: what all writes of the clients preserve, a run preserves.
* `Run.related`: states before and after are related as each write relates them.
-/

namespace Interbellum.Txn

variable {ι σ ω κ α β ρ τ : Type} {P : ω → Prop}

namespace Body

/-- All statements only make writes with `P`. -/
def Writes (P : ω → Prop) : Body σ ω κ ρ → Prop
  | .ret _ => True
  | .stmt effect next => ∀ s, (∀ w ∈ (effect s).writes, P w) ∧ (next s).Writes P

theorem Writes.mono {P' : ω → Prop} {b : Body σ ω κ ρ} (hb : b.Writes P) (h : ∀ w, P w → P' w) :
    b.Writes P' := by
  induction b with
  | ret r => trivial
  | stmt effect next ih => exact fun s => ⟨fun w hw => h w ((hb s).1 w hw), ih s (hb s).2⟩

theorem Writes.bind {b : Body σ ω κ ρ} {k : ρ → Body σ ω κ τ} (hb : b.Writes P)
    (hk : ∀ r, (k r).Writes P) : (b >>= k).Writes P := by
  induction b with
  | ret r => exact hk r
  | stmt effect next ih => exact fun s => ⟨(hb s).1, ih s (hb s).2⟩

theorem Writes.bind_except {ε : Type} {x : ExceptT ε (Body σ ω κ) ρ}
    {k : ρ → ExceptT ε (Body σ ω κ) τ} (hx : x.run.Writes P) (hk : ∀ r, (k r).run.Writes P) :
    (x >>= k).run.Writes P := by
  refine Writes.bind hx ?_
  rintro (e | r)
  · trivial
  · exact hk r

end Body

namespace Call

/-- All statements outside of snapshots only make writes with `P`; a snapshot cannot write. -/
def Writes (P : ω → Prop) : Call σ ω κ α → Prop
  | .ret _ => True
  | .auto effect next => ∀ s, (∀ w ∈ (effect s).writes, P w) ∧ (next s).Writes P
  | .tx body next => body.Writes P ∧ ∀ r, (next r).Writes P
  | .snapshot _ next => ∀ r, (next r).Writes P

theorem Writes.mono {P' : ω → Prop} {c : Call σ ω κ α} (hc : c.Writes P) (h : ∀ w, P w → P' w) :
    c.Writes P' := by
  induction c with
  | ret a => trivial
  | auto effect next ih => exact fun s => ⟨fun w hw => h w ((hc s).1 w hw), ih s (hc s).2⟩
  | tx body next ih => exact ⟨hc.1.mono h, fun r => ih r (hc.2 r)⟩
  | snapshot body next ih => exact fun r => ih r (hc r)

theorem Writes.bind {c : Call σ ω κ α} {k : α → Call σ ω κ β} (hc : c.Writes P)
    (hk : ∀ a, (k a).Writes P) : (c >>= k).Writes P := by
  induction c with
  | ret a => exact hk a
  | auto effect next ih => exact fun s => ⟨(hc s).1, ih s (hc s).2⟩
  | tx body next ih => exact ⟨hc.1, fun r => ih r (hc.2 r)⟩
  | snapshot body next ih => exact fun r => ih r (hc r)

theorem Writes.map {f : α → β} {c : Call σ ω κ α} (hc : c.Writes P) : (f <$> c).Writes P :=
  hc.bind fun _ => trivial

theorem Writes.bind_except {ε : Type} {x : ExceptT ε (Call σ ω κ) α}
    {k : α → ExceptT ε (Call σ ω κ) β} (hx : x.run.Writes P) (hk : ∀ a, (k a).run.Writes P) :
    (x >>= k).run.Writes P := by
  refine Writes.bind hx ?_
  rintro (e | a)
  · trivial
  · exact hk a

theorem writes_autocommit {b : Body σ ω κ ρ} (h : b.Writes P) :
    (autocommit b : Call σ ω κ ρ).Writes P := by
  induction b with
  | ret r => trivial
  | stmt effect next ih => exact fun s => ⟨(h s).1, ih s (h s).2⟩

end Call

/-- What is left of the session's call makes writes with `P`, and so did its open
transaction. -/
def Session.Writes (P : ω → Prop) : Session σ ω κ α → Prop
  | .idle call => call.Writes P
  | .busy rest next ws _ => rest.Writes P ∧ (∀ r, (next r).Writes P) ∧ ∀ w ∈ ws, P w
  | .reading _ next _ => ∀ r, (next r).Writes P
  | .dead => True

variable [DecidableEq ι] [Writable σ ω] {sys sys' : System ι σ ω κ α} {i : ι}

theorem Step.writes {event : Event} (h : Step i event sys sys')
    (hsession : (sys.session i).Writes P) : (sys'.session i).Writes P ∧
      ∃ ws : List ω, (∀ w ∈ ws, P w) ∧ sys'.store = applyAll ws sys.store := by
  have hstays : sys'.store = sys.store →
      ∃ ws : List ω, (∀ w ∈ ws, P w) ∧ sys'.store = applyAll ws sys.store :=
    fun he => ⟨[], fun _ hw => (List.not_mem_nil hw).elim, he⟩
  cases h with
  | begin h =>
    rw [h] at hsession
    refine ⟨?_, hstays rfl⟩
    rw [System.set_self]
    exact ⟨hsession.1, hsession.2, fun _ hw => (List.not_mem_nil hw).elim⟩
  | statement h =>
    rw [h] at hsession
    obtain ⟨hbody, hnext, hws⟩ := hsession
    refine ⟨?_, hstays rfl⟩
    rw [System.set_self]
    refine ⟨(hbody _).2, hnext, ?_⟩
    intro w hw
    rcases List.mem_append.mp hw with hw | hw
    · exact hws w hw
    · exact (hbody _).1 w hw
  | commit h =>
    rw [h] at hsession
    obtain ⟨-, hnext, hws⟩ := hsession
    refine ⟨?_, _, hws, rfl⟩
    rw [System.put_self]
    exact hnext _
  | rollback h =>
    rw [h] at hsession
    refine ⟨?_, hstays rfl⟩
    rw [System.set_self]
    exact hsession.2.1 _
  | auto h =>
    rw [h] at hsession
    obtain ⟨hws, hnext⟩ := hsession sys.store
    refine ⟨?_, _, hws, rfl⟩
    rw [System.put_self]
    exact hnext
  | beginSnapshot h =>
    rw [h] at hsession
    refine ⟨?_, hstays rfl⟩
    rw [System.set_self]
    exact hsession
  | read h =>
    rw [h] at hsession
    refine ⟨?_, hstays rfl⟩
    rw [System.set_self]
    exact hsession
  | finish h =>
    rw [h] at hsession
    refine ⟨?_, hstays rfl⟩
    rw [System.set_self]
    exact hsession _
  | crash =>
    refine ⟨?_, hstays rfl⟩
    rw [System.set_self]
    trivial

variable {Ps : ι → ω → Prop} {trace : List (ι × Event)}

theorem Run.writes (hrun : Run sys trace sys') (h : ∀ i, (sys.session i).Writes (Ps i)) (i : ι) :
    (sys'.session i).Writes (Ps i) := by
  induction hrun with
  | nil => exact h i
  | @snoc _ _ _ j _ _ hstep ih =>
    by_cases hj : j = i
    · subst hj
      exact (hstep.writes ih).1
    · rwa [hstep.session_of_ne (Ne.symm hj)]

theorem applyAll_preserves {I : σ → Prop} (hI : ∀ s w, P w → I s → I (Writable.write s w))
    {ws : List ω} (hws : ∀ w ∈ ws, P w) {s : σ} (hs : I s) : I (applyAll ws s) := by
  induction ws generalizing s with
  | nil => exact hs
  | cons w ws ih =>
    exact ih (fun w' hw' => hws w' (List.mem_cons_of_mem _ hw'))
      (hI s w (hws w List.mem_cons_self) hs)

theorem Run.preserves {I : σ → Prop} (hI : ∀ i s w, Ps i w → I s → I (Writable.write s w))
    (hrun : Run sys trace sys') (h : ∀ i, (sys.session i).Writes (Ps i)) (hs : I sys.store) :
    I sys'.store := by
  induction hrun with
  | nil => exact hs
  | @snoc _ _ _ j _ hrun hstep ih =>
    obtain ⟨-, ws, hws, hstore⟩ := hstep.writes (hrun.writes h j)
    rw [hstore]
    exact applyAll_preserves (hI j) hws ih

/-- What every write leaves the state related by, a run does. -/
theorem Run.related {R : σ → σ → Prop} (hrefl : ∀ s, R s s)
    (htrans : ∀ {s t u}, R s t → R t u → R s u) (hwrite : ∀ s w, R s (Writable.write s w))
    (hrun : Run sys trace sys') : R sys.store sys'.store := by
  have happly : ∀ (ws : List ω) s, R s (applyAll ws s) := by
    intro ws
    induction ws with
    | nil => exact hrefl
    | cons w ws ih => exact fun s => htrans (hwrite s w) (ih _)
  induction hrun with
  | nil => exact hrefl _
  | snoc _ hstep ih =>
    refine htrans ih ?_
    cases hstep with
    | commit => exact happly _ _
    | auto => exact happly _ _
    | _ => exact hrefl _

/-- What one step of the run does to the committed state. -/
theorem Around.writes {event : Event} {before after : System ι σ ω κ α}
    (hat : Around i event sys trace sys' before after)
    (h : ∀ i, (sys.session i).Writes (Ps i)) :
    ∃ ws : List ω, (∀ w ∈ ws, Ps i w) ∧ after.store = applyAll ws before.store := by
  obtain ⟨_, _, -, hbefore, hstep, -⟩ := hat
  exact (hstep.writes (hbefore.writes h i)).2

end Interbellum.Txn
