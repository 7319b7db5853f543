import Interbellum.Guarantees.Starts
import Interbellum.Guarantees.Views
import Interbellum.Server.Failures

/-!
# Branches that are never taken

The code guards against states that it takes to be impossible: a published version without a
usable root, an investigation at a node that its version does not have, an edge that leads
elsewhere than it was read to, and constraints on investigations and their steps. No run of
the server gets there.

* `dead_branches`: what clients of investigations are told instead.
-/

namespace Interbellum

open InvestigationRepository

variable {s : Store} {a : Attempt}

/-- A decision that is rejected has not hit one of these constraints. -/
theorem Rejects.live {e : Err} (h : Rejects s a e) : translate e ∉ deadReplies ∧
    (translate e = .internal → storableInput a.input = false ∨
      int4 ((s.stepsOf a.investigationID).length + 1 : Nat) = false) := by
  refine ⟨h.expected.live, ?_⟩
  cases h with
  | unstorable hcause => exact fun _ => hcause.imp_right And.right
  | _ => exact nofun

/-- In a state between the two, the decision itself is refused with this error. -/
def Refuses (s : Store) (a : Attempt) (e : AppError) (u : Store) : Prop :=
  ∃ t, Valid t ∧ Evolves s t ∧ Evolves t u ∧ (Operation.decide a).call.run t = (.error e, t) ∧
    e ∉ deadReplies ∧ (e = .internal → storableInput a.input = false ∨
      int4 ((t.stepsOf a.investigationID).length + 1 : Nat) = false)

theorem attempt_refuses (s : Store) (a : Attempt) :
    a.call.run.Keeps rules (Footprint none a.Records) (fun r u =>
      (∀ e, r = .error e → Refuses s a e u) ∧
        ∀ d, r = .ok d → ∃ i ∈ u.investigations, i.id = a.investigationID) s := by
  refine keeps_inTx ?_
  intro t ht hst
  refine (keeps_applyDecisionBody ht).and_run.mono ?_ ?_
  · rintro d ws ls ⟨hends, -⟩
    refine ⟨hends.commits ht hends.accepts.footprint, ?_⟩
    intro u hu htu
    obtain ⟨r, hr, -⟩ := hends.accepts.recorded
    have hr' : r ∈ u.stepsOf a.investigationID := (htu.steps _).subset hr
    exact ⟨nofun, fun _ _ => hu.owner hr'⟩
  · rintro e ⟨hrejects, hfailed⟩ u hu htu
    refine ⟨?_, nofun⟩
    rintro _ ⟨⟩
    obtain ⟨hlive, hinternal⟩ := hrejects.live
    refine ⟨t, ht, hst, htu, ?_, hlive, hinternal⟩
    have hcall : (Operation.decide a).call.run t =
        ((a.call.run.run t).1.map .decision, (a.call.run.run t).2) := run_reply _ _ t
    have hbody : a.body.run.run t [] = (.error e, (a.body.run.run t []).2) := Prod.ext hfailed rfl
    rw [hcall, a.run_call, hbody]
    rfl

/-- Once the decision was accepted, nothing fails any more. -/
theorem submit_refuses (hs : Valid s) (a : Attempt) :
    a.submit.run.Keeps rules (Footprint none a.Records) (fun r u => ∀ e, r = .error e →
      InvestigationService.validateDecision a.input = .error e ∨ Refuses s a e u) s := by
  unfold Attempt.submit InvestigationService.submitDecision
  cases hvalid : InvestigationService.validateDecision a.input with
  | error e =>
    rintro _ _ _ _ ⟨⟩
    exact .inl rfl
  | ok =>
    refine .bind_except hs (attempt_refuses s a) ?_ ?_
    · rintro d t ht - ⟨-, hthere⟩
      obtain ⟨i, hi, hid⟩ := hthere d rfl
      refine (get_keeps ht (Footprint.refl _ _) a.investigationID).mono (fun _ _ h => h) ?_
      rintro r u ⟨x, -, htx, -, ⟨hnone, -⟩ | ⟨j, v, al, n, steps, -, -, hr⟩⟩ e he
      · obtain ⟨j, hj, hjid, -⟩ := htx.investigations i hi
        exact absurd (hjid.trans hid) (hnone j hj)
      · rw [hr] at he
        cases he
    · rintro e t ⟨hrefuses, -⟩ u hu htu e' he
      obtain ⟨x, hx, hsx, hxt, hrest⟩ := hrefuses e rfl
      obtain rfl := Except.error.inj he
      exact .inr ⟨x, hx, hsx, hxt.trans htu, hrest⟩

/-- The join finds the edge together with its target, so the check of the target that follows
never fails. -/
theorem decide_of_loaded {t : Store} {ws ws' : List Write} {versionID edgeID : UUID}
    {edge : Edge} {destination : Node}
    (h : (loadEdgeWithDestination versionID edgeID).run.run t ws = (.ok (edge, destination), ws'))
    (i : Investigation) (now : Time) :
    destination.id = edge.toNodeID ∧ i.decide edge destination now ≠ .error .internal := by
  have hto : destination.id = edge.toNodeID := by
    obtain ⟨hresult, -⟩ := ok_of_sql h
    cases hedge : ((Txn.applyAll ws t).edgesOf versionID).find? (fun e => e.id = edgeID) with
    | none => simp [hedge, Answer.fail] at hresult
    | some e =>
      simp only [hedge] at hresult
      obtain ⟨n, hn, hpair⟩ := Option.map_eq_some_iff.mp (row_result hresult)
      obtain ⟨rfl, rfl⟩ := Prod.mk.inj hpair
      simpa using List.find?_some hn
  refine ⟨hto, ?_⟩
  intro hinternal
  unfold Investigation.decide at hinternal
  split_ifs at hinternal with hcompleted hfrom hne
  · cases hinternal
  · cases hinternal
  · exact hne hto.symm

section

variable {ι : Type} [DecidableEq ι] {ops : ι → Operation} {trace : List (ι × Txn.Event)}
  {sys : Server ι} {k : ι}

theorem map_eq_error {β γ : Type} {f : β → γ} {r : Except AppError β} {e : AppError}
    (h : r.map f = .error e) : r = .error e := by
  cases r with
  | error e' => exact congrArg _ (Except.error.inj h)
  | ok b => cases h

/-- In every run, a client that is not given what it asked for is told so for another reason
than one of the branches that are taken to be impossible. This holds as soon as its statement
has failed.

* Starting fails with one of `startCodes`: not with an internal error, as for a published
  version without a usable root, and not with a validation error, as for a violation of
  `chk_investigations_completion`.
* Showing an investigation fails only if it is not there.
* A decision that fails is refused in some state between the first one and this one, by no
  constraint of `deadErrors`, and with an internal error only for values that cannot be
  stored; and when it is accepted the investigation is shown.
* No client is answered what a violation of a constraint of `deadErrors` is answered with,
  whatever it writes: also not when it replaces a graph whose nodes and edges steps could refer
  to.
* The edge and the node that a decision loads belong together, whatever is stored. -/
theorem dead_branches (h : Reachable s) (hrun : Txn.Run (clients s ops) trace sys) :
    (∀ k id now alertID versionID e, ops k = .start id now alertID versionID →
      (sys.session k).Replies (.error e) → e.code ∈ startCodes) ∧
    (∀ k id e, ops k = .getInvestigation id ∨ ops k = .report id →
      (sys.session k).Replies (.error e) → e = .notFound "investigation") ∧
    (∀ k a e, ops k = .decide a → (sys.session k).Replies (.error e) → Refuses s a e sys.store) ∧
    (∀ k a e, ops k = .submit a → (sys.session k).Replies (.error e) →
      InvestigationService.validateDecision a.input = .error e ∨ Refuses s a e sys.store) ∧
    (∀ k e, (sys.session k).Replies (.error e) → e ∉ deadReplies) ∧
    ∀ versionID edgeID ws ws' edge destination,
      (loadEdgeWithDestination versionID edgeID).run.run sys.store ws =
        (.ok (edge, destination), ws') →
      ∀ (i : Investigation) now, destination.id = edge.toNodeID ∧
        i.decide edge destination now ≠ .error .internal := by
  refine ⟨?_, ?_, ?_, ?_, fun k e hreply => (expected_replies h hrun hreply).live,
    fun _ _ _ _ _ _ hloaded => decide_of_loaded hloaded⟩
  · intro k id now alertID versionID e hop hreply
    have hkeeps : (ops k).call.Keeps rules (Begins id alertID versionID)
        (fun r _ => ∀ e, r = .error e → StartRefused e) s := by
      rw [hop]
      refine keeps_reply (start_begins h.valid id now alertID versionID) ?_
      rintro (e | state) u hyields e' he
      · exact Except.error.inj he ▸ hyields
      · cases he
    exact (replies_of h hrun hkeeps hreply e rfl).code
  · intro k id e hop hreply
    have hanswers : (ops k).Answers s (.error e) sys.store :=
      replies_of h hrun ((ops k).keeps h.valid) hreply
    have hviewed : ∀ {β : Type} {view : Store → Investigation → Version → Alert → Node →
        List Step → β} {f : β → Reply} {r : Except AppError β}, Viewed s id view r sys.store →
        .error e = r.map f → e = .notFound "investigation" := by
      rintro β view f r ⟨t, -, -, -, ⟨-, rfl⟩ | ⟨i, v, a, n, steps, -, -, rfl⟩⟩ he
      · exact Except.error.inj he
      · cases he
    rcases hop with hop | hop
    · rw [hop] at hanswers
      obtain ⟨r, hr, he⟩ := hanswers
      exact hviewed hr he
    · rw [hop] at hanswers
      obtain ⟨r, hr, he⟩ := hanswers
      exact hviewed hr he
  · intro k a e hop hreply
    have hkeeps : (ops k).call.Keeps rules (Footprint none a.Records)
        (fun r u => ∀ e, r = .error e → Refuses s a e u) s := by
      rw [hop]
      exact keeps_reply (attempt_refuses s a) fun r u hr e he => hr.1 e (map_eq_error he)
    exact replies_of h hrun hkeeps hreply e rfl
  · intro k a e hop hreply
    have hkeeps : (ops k).call.Keeps rules (Footprint none a.Records) (fun r u => ∀ e,
        r = .error e → InvestigationService.validateDecision a.input = .error e ∨
          Refuses s a e u) s := by
      rw [hop]
      exact keeps_reply (submit_refuses h.valid a) fun r u hr e he => hr e (map_eq_error he)
    exact replies_of h hrun hkeeps hreply e rfl

/-- A decision for an edge that is not there, and a new graph for the published version. -/
def Triage.refusals : Bool → Operation
  | false => .decide (Triage.attempt 5 99 none)
  | true => .replaceGraph 2 Triage.graph

def Triage.elsewhere : AppError :=
  .new .invalidTransition "edge %s is not part of this investigation's playbook version" [.uuid 99]

def Triage.immutable : AppError :=
  .new .versionNotDraft ("playbook version %s is %s; published definitions are immutable — " ++
    "create a new version instead") [.uuid 2, .str "published"]

/-- Reasons that remain: the edge is not there, and the graph is published. -/
theorem dead_branches_triage : ∃ sys : Server Bool,
    Refuses Triage.started (Triage.attempt 5 99 none) Triage.elsewhere sys.store ∧
      (sys.session true).Replies (.error Triage.immutable) ∧ Triage.immutable ∉ deadReplies := by
  obtain ⟨trace, sys, hrun, hdecided, hreplaced⟩ : ∃ trace sys,
      Txn.Run (clients Triage.started Triage.refusals) trace sys ∧
      (sys.session false).answer? = some (.error Triage.elsewhere) ∧
      (sys.session true).answer? = some (.error Triage.immutable) :=
    ⟨_, _, Txn.run_follow (List.replicate 3 false ++ List.replicate 12 true ++
      List.replicate 12 false) _, by decide +kernel, by decide +kernel⟩
  obtain ⟨-, -, hdecide, -, hlive, -⟩ := dead_branches Triage.reachable_started hrun
  exact ⟨sys, hdecide false _ _ rfl (Txn.Session.replies_of_answer? hdecided),
    Txn.Session.replies_of_answer? hreplaced,
    hlive true _ (Txn.Session.replies_of_answer? hreplaced)⟩

end

end Interbellum
