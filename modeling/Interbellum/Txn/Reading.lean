import Interbellum.Txn.Refinement

/-!
# Reading beside a run

A client that only reads need not be one of the clients of a run: it takes no locks and writes
nothing, so no step of the others depends on it. Its statements fall between their steps.

* `Reads.run`: what the others did meanwhile is a run.
* `Linked.reads`: the answer meets what was shown of the call.
-/

namespace Interbellum.Txn

variable {ι σ ω κ α β : Type} [DecidableEq ι] [Writable σ ω]

/-- The call is sent in the first state of the system and answered in the last one. -/
inductive Call.Reads : Call σ ω κ β → System ι σ ω κ α → β → System ι σ ω κ α → Prop
  | ret {b : β} {sys sys' : System ι σ ω κ α} {trace : List (ι × Event)}
      (hrun : Run sys trace sys') : Reads (.ret b) sys b sys'
  | auto {effect : σ → Effect ω κ} {next : σ → Call σ ω κ β} {b : β}
      {sys now sys' : System ι σ ω κ α} {trace : List (ι × Event)} (hrun : Run sys trace now)
      (heffect : effect now.store = ⟨[], []⟩) (hrest : Reads (next now.store) now b sys') :
      Reads (.auto effect next) sys b sys'
  | snapshot {ρ : Type} {body : Body σ ω κ ρ} {next : ρ → Call σ ω κ β} {b : β}
      {sys now sys' : System ι σ ω κ α} {trace : List (ι × Event)} (hrun : Run sys trace now)
      (hrest : Reads (next (body.read now.store)) now b sys') :
      Reads (.snapshot body next) sys b sys'

variable {c : Call σ ω κ β} {b : β} {sys sys' : System ι σ ω κ α}

theorem Call.Reads.run (h : c.Reads sys b sys') : ∃ trace, Run sys trace sys' := by
  induction h with
  | ret hrun => exact ⟨_, hrun⟩
  | auto hrun _ _ ih =>
    obtain ⟨trace, hrest⟩ := ih
    exact ⟨_, hrun.append hrest⟩
  | snapshot hrun _ ih =>
    obtain ⟨trace, hrest⟩ := ih
    exact ⟨_, hrun.append hrest⟩

/-- The rely of the reader is that the others keep to the discipline. -/
theorem Linked.reads {D : Discipline σ κ} {G : ι → σ → σ → Prop} {Q : ι → α → σ → Prop}
    {G' : σ → σ → Prop} {Q' : β → σ → Prop} {calls : ι → Call σ ω κ α}
    (h : Linked D G Q sys calls) (hreads : c.Reads sys b sys')
    (hkeeps : c.Keeps D G' Q' sys.store) :
    (∃ calls', Linked D G Q sys' calls') ∧ D.Evolves sys.store sys'.store ∧ Q' b sys'.store := by
  induction hreads generalizing calls with
  | ret hrun =>
    obtain ⟨⟨calls', hlinked⟩, hevolves⟩ := h.run hrun
    exact ⟨⟨calls', hlinked⟩, hevolves, hkeeps _ hlinked.inv hevolves⟩
  | auto hrun heffect _ ih =>
    obtain ⟨⟨calls', hlinked⟩, hevolves⟩ := h.run hrun
    have hnext := (hkeeps _ hlinked.inv hevolves).2
    rw [heffect, applyAll_nil] at hnext
    obtain ⟨hlinked', hevolves', hQ⟩ := ih hlinked hnext
    exact ⟨hlinked', D.trans hevolves hevolves', hQ⟩
  | snapshot hrun _ ih =>
    obtain ⟨⟨calls', hlinked⟩, hevolves⟩ := h.run hrun
    obtain ⟨hlinked', hevolves', hQ⟩ := ih hlinked (hkeeps _ hlinked.inv hevolves)
    exact ⟨hlinked', D.trans hevolves hevolves', hQ⟩

end Interbellum.Txn
