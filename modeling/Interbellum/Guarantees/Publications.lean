import Interbellum.Guarantees.Refusals
import Interbellum.Guarantees.Reopened

/-!
# Publishing what the form shows

A draft is loaded into the form and then published, while other clients work.

* `LeftAlone.before`: only another editor of the version can change what is published.
* `publish_as_shown`: the form is published as it is, or its problems are shown.
-/

namespace Interbellum

open Frontend (PlaybookDraft request loadDraft shownIssue)
open Http.Response (Writer errorBody toDefinition)
open Utf16 (Text)

/-! ## The version until it is published -/

section

variable {id : UUID} {s t u : Store}

/-- The version has the same graph. -/
def KeepsGraph (id : UUID) (s t : Store) : Prop :=
  ∀ v ∈ s.versions, v.id = id → ∃ v' ∈ t.versions, v'.id = id ∧ t.graphOf v' = s.graphOf v

theorem KeepsGraph.refl (id : UUID) (s : Store) : KeepsGraph id s s :=
  fun v hv hid => ⟨v, hv, hid, rfl⟩

theorem KeepsGraph.trans (h : KeepsGraph id s t) (h' : KeepsGraph id t u) : KeepsGraph id s u := by
  intro v hv hid
  obtain ⟨v', hv', hid', hgraph⟩ := h v hv hid
  obtain ⟨v'', hv'', hid'', hgraph'⟩ := h' v' hv' hid'
  exact ⟨v'', hv'', hid'', hgraph'.trans hgraph⟩

theorem Published.keepsGraph {now : Time} {d : Definition} (h : Published s id now d t) :
    KeepsGraph id s t := by
  obtain ⟨-, rfl⟩ := h
  intro v hv hid
  exact ⟨v.published now, mem_updateWhere.mpr (.inr ⟨v, hv, decide_eq_true hid, rfl⟩), hid, rfl⟩

variable {ι : Type} [DecidableEq ι] {ops : ι → Operation} {trace : List (ι × Txn.Event)}
  {sys sys' : Server ι} {k : ι} {now : Time}

theorem keepsGraph_run (hrun : Txn.Run sys trace sys')
    (hsteps : ∀ j event before after, Txn.Around j event sys trace sys' before after →
      KeepsGraph id before.store after.store) : KeepsGraph id sys.store sys'.store := by
  induction hrun with
  | nil => exact .refl id _
  | @snoc mid sys'' t j event hrun hstep ih =>
    have hkept := ih fun j event before after hat => hsteps j event before after (hat.snoc hstep)
    exact hkept.trans (hsteps j event mid sys'' ⟨t, [], rfl, hrun, hstep, .nil _⟩)

/-- A client that publishes leaves the graph as it is. -/
theorem publish_keepsGraph (h : Reachable s) (hop : (ops k).call = (Operation.publish id now).call)
    {event : Txn.Event} {before after : Server ι}
    (hat : Txn.Around k event (clients s ops) trace sys before after) :
    KeepsGraph id before.store after.store := by
  have hsingle : (ops k).call.Single := by
    rw [hop]
    exact single_inTx _ _
  rcases (tracked_clients h.valid ops).single_step hsingle hat with hsame | ⟨r, hcall⟩
  · rw [hsame]
    exact .refl id _
  · obtain ⟨_, _, -, hbefore, -, -⟩ := hat
    rw [hop] at hcall
    rcases publish_of_call (h.run hbefore).valid hcall with ⟨d, -, hpublished⟩ | ⟨hsame, -⟩
    · exact hpublished.keepsGraph
    · rw [hsame]
      exact .refl id _

/-- Every other client leaves the graph of the version as it is. -/
def LeftAlone (ops : ι → Operation) (k : ι) (id : UUID) (s : Store)
    (trace : List (ι × Txn.Event)) (sys : Server ι) : Prop :=
  ∀ j event before after, j ≠ k → Txn.Around j event (clients s ops) trace sys before after →
    KeepsGraph id before.store after.store

theorem LeftAlone.before (h : Reachable s) (hop : (ops k).call = (Operation.publish id now).call)
    (halone : LeftAlone ops k id s trace sys) {event : Txn.Event} {before after : Server ι}
    (hat : Txn.Around k event (clients s ops) trace sys before after) :
    KeepsGraph id s before.store := by
  obtain ⟨t, t', rfl, hbefore, hstep, hafter⟩ := hat
  refine keepsGraph_run hbefore fun j event' before' after' hat' => ?_
  by_cases hj : j = k
  · subst hj
    exact publish_keepsGraph h hop hat'
  · obtain ⟨t₁, t₂, rfl, hfirst, hmove, hrest⟩ := hat'
    refine halone j event' before' after' hj ⟨t₁, t₂ ++ (k, event) :: t', ?_, hfirst, hmove,
      hrest.append ((Txn.Run.single hstep).append hafter)⟩
    simp

end

/-! ## The form -/

/-- The problem is that the form has no root, or one of a node of the form. -/
def OfForm (d : PlaybookDraft) (issue : Frontend.GraphValidationIssue) : Prop :=
  issue.edgeId = none ∧ (issue.nodeId = none ∧ d.rootNodeId = [] ∨
    ∃ n ∈ d.nodes, issue.nodeId = some (.str n.id))

theorem ofForm_shownIssue {w : Writer} {g : Graph} (h : g.Closed) {i : ValidationIssue}
    (hi : i ∈ g.validate) : OfForm (reopened w g) (shownIssue w i) := by
  rcases h.names_node hi with ⟨hroot, rfl⟩ | ⟨n, hn, reason, rfl⟩
  · refine ⟨rfl, .inl ⟨rfl, ?_⟩⟩
    rw [reopened, hroot]
    rfl
  · exact ⟨rfl, .inr ⟨reopenedNode w n, List.mem_map_of_mem hn, rfl⟩⟩

/-- A version is loaded into the form and then published, while other clients do whatever leaves
its graph alone. If the graph has no problems and the version is a draft still, then it is
published, and is what the form shows; otherwise all its problems are shown, each at a node of the
form. -/
theorem publish_as_shown {ι : Type} [DecidableEq ι] {s : Store} (h : Reachable s) {v : Version}
    (hv : v ∈ s.versions) {w : Writer} {answer : Text}
    (hanswer : Http.Holds answer ((toDefinition ⟨v, s.graphOf v⟩).toDoc w)) {ops : ι → Operation}
    {trace : List (ι × Txn.Event)} {sys : Server ι} (hrun : Txn.Run (clients s ops) trace sys)
    {k : ι} {parse : String → Option UUID} {versionID : String} {now : Time}
    (hid : parse versionID = some v.id) (hsent : (ops k).call = Http.publish parse now versionID)
    (halone : LeftAlone ops k v.id s trace sys) {r : Except AppError Reply}
    (hreply : sys.session k = .idle (.ret r)) (message : String → List Arg → String) :
    ∃ d event before after, loadDraft answer = some d ∧
      Txn.Around k event (clients s ops) trace sys before after ∧
      ∃ u ∈ before.store.versions, u.id = v.id ∧ before.store.graphOf u = s.graphOf v ∧
        ((∃ definition, r = .ok (.definition definition) ∧ u.status = .draft ∧
          (s.graphOf v).validate = [] ∧
          ∀ answer', Http.Holds answer' ((toDefinition definition).toDoc w) →
            loadDraft answer' = some d) ∨
        (∃ e, r = .error e ∧ u.status ≠ .draft ∧ e.code = .versionNotDraft) ∨
        ∃ e, r = .error e ∧ u.status = .draft ∧ (s.graphOf v).validate ≠ [] ∧
          ∀ body, Http.Holds body (errorBody w message e) → ∃ shown issues,
            request 422 body = .error shown ∧ shown.issues = some issues ∧
            issues = (s.graphOf v).validate.map (shownIssue w) ∧ ∀ i ∈ issues, OfForm d i) := by
  have hkept := h.graph_kept hv
  have hop : (ops k).call = (Operation.publish v.id now).call := hsent.trans (call_publish hid)
  obtain ⟨event, before, after, hat, hvalid, hdecided⟩ := publish_decided h hrun hop hreply
  obtain ⟨u, hu, huid, hgraph⟩ := halone.before h hop hat v hv rfl
  refine ⟨_, event, before, after, loadDraft_answer hkept.nodes hanswer, hat, u, hu, huid,
    hgraph, ?_⟩
  have hrow : ∀ u' ∈ before.store.versions, u'.id = v.id → u' = u := fun u' hu' hid' =>
    List.inj_on_of_nodup_map hvalid.version_ids hu' hu (hid'.trans huid.symm)
  rcases hdecided with ⟨definition, rfl, hpublished, -⟩ | ⟨-, e, rfl, hrefusal⟩
  · obtain ⟨u', hu', hid', hdraft, hproblems, rfl⟩ := hpublished
    obtain rfl := hrow u' hu' hid'
    rw [hgraph] at hproblems ⊢
    exact .inl ⟨_, rfl, hdraft, hproblems, fun answer' hanswer' =>
      loadDraft_answer hkept.nodes hanswer'⟩
  · obtain ⟨code, format, args, details⟩ := e
    cases hrefusal with
    | missing hmissing => exact absurd huid (hmissing u hu)
    | frozen hu' hid' hstatus =>
      obtain rfl := hrow _ hu' hid'
      exact .inr (.inl ⟨_, rfl, hstatus, rfl⟩)
    | invalid hu' hid' hdraft hproblems =>
      obtain rfl := hrow _ hu' hid'
      rw [hgraph] at hproblems ⊢
      refine .inr (.inr ⟨_, rfl, hdraft, hproblems, fun body hbody => ?_⟩)
      obtain ⟨shown, hrequest, -, -, -, hissues⟩ := Frontend.request_errorBody w message _ hbody
      exact ⟨shown, _, hrequest, hissues, rfl, List.forall_mem_map.mpr fun i hi =>
        ofForm_shownIssue hkept.closed hi⟩

namespace Triage

/-- Two clients that publish the draft. -/
def publishers : Bool → Operation
  | false => .publish 2 8
  | true => .publish 2 9

/-- A draft that is not ready to be published. -/
def incomplete : Store :=
  after [.createPlaybook 1 2 7 ⟨"triage", "", "ddos", unfinished⟩] Store.empty

theorem reachable_incomplete : Reachable incomplete := Reachable.empty.after _

/-- What an editor of it loads. -/
def rootless : Definition :=
  ⟨{ version with rootNodeID := none }, incomplete.graphOf { version with rootNodeID := none }⟩

/-- What the one is told that publishes the other draft. -/
def published : Definition :=
  ⟨{ version with status := .published, publishedAt := some 8 }, drafted.graphOf version⟩

/-- What the one is told that comes too late. -/
def late : AppError :=
  .new .versionNotDraft "playbook version %s is already %s" [.uuid 2, .str "published"]

/-- The second one waits for the lock of the version. -/
theorem run_publishers : ∃ trace sys, Txn.Run (clients drafted publishers) trace sys ∧
    (trace.take 3).map Prod.fst = [true, false, false] ∧
    sys.session false = .idle (.ret (.ok (.definition published))) ∧
    sys.session true = .idle (.ret (.error late)) := by
  obtain ⟨trace, sys, hrun, hturns, hanswer, hlate⟩ : ∃ trace sys,
      Txn.Run (clients drafted publishers) trace sys ∧
      (trace.take 3).map Prod.fst = [true, false, false] ∧
      (sys.session false).answer? = some (.ok (.definition published)) ∧
      (sys.session true).answer? = some (.error late) :=
    ⟨_, _, Txn.run_follow ([true, false] ++ (List.replicate 20 [false, true]).flatten) _,
      by decide +kernel, by decide +kernel, by decide +kernel⟩
  exact ⟨trace, sys, hrun, hturns, Txn.Session.eq_of_answer? hanswer,
    Txn.Session.eq_of_answer? hlate⟩

/-- Neither of the two can publish. -/
theorem run_publishers_incomplete : ∃ trace sys, Txn.Run (clients incomplete publishers) trace sys ∧
    sys.session false = .idle (.ret (.error refused)) ∧
    sys.session true = .idle (.ret (.error refused)) := by
  obtain ⟨trace, sys, hrun, hanswer, hother⟩ : ∃ trace sys,
      Txn.Run (clients incomplete publishers) trace sys ∧
      (sys.session false).answer? = some (.error refused) ∧
      (sys.session true).answer? = some (.error refused) :=
    ⟨_, _, Txn.run_follow (List.replicate 20 [false, true]).flatten _, by decide +kernel,
      by decide +kernel⟩
  exact ⟨trace, sys, hrun, Txn.Session.eq_of_answer? hanswer, Txn.Session.eq_of_answer? hother⟩

theorem leftAlone_publishers {s : Store} (h : Reachable s) {trace : List (Bool × Txn.Event)}
    {sys : Server Bool} : LeftAlone publishers false 2 s trace sys := by
  intro j event before after hj hat
  obtain rfl : j = true := Bool.eq_true_of_not_eq_false hj
  have hop : (publishers true).call = (Operation.publish 2 9).call := rfl
  exact publish_keepsGraph h hop hat

end Triage

/-- While the other client waits for the lock, the draft is published as the form shows it, and the
other one is told so. When neither can publish, the problems are shown in the form. -/
theorem publish_as_shown_triage :
    (∃ (trace : List (Bool × Txn.Event)) (sys : Server Bool) (d : PlaybookDraft),
      (trace.take 3).map Prod.fst = [true, false, false] ∧
      loadDraft (answerText Triage.writer
        ⟨Triage.version, Triage.drafted.graphOf Triage.version⟩) = some d ∧
      sys.session false = .idle (.ret (.ok (.definition Triage.published))) ∧
      sys.session true = .idle (.ret (.error Triage.late)) ∧
      loadDraft (answerText Triage.writer Triage.published) = some d) ∧
    ∃ (sys : Server Bool) (d : PlaybookDraft) (shown : Frontend.ApiError) (issues : List _),
      loadDraft (answerText Triage.writer Triage.rootless) = some d ∧
      sys.session false = .idle (.ret (.error Triage.refused)) ∧
      sys.session true = .idle (.ret (.error Triage.refused)) ∧
      request 422 Triage.refusedText = .error shown ∧ shown.issues = some issues ∧
      issues.length = 2 ∧ ∀ i ∈ issues, OfForm d i := by
  have hid : Http.Response.readID (Http.Response.idText 2) = some 2 := Http.Response.readID_idText 2
  constructor
  · obtain ⟨trace, sys, hrun, hturns, hanswer, hlate⟩ := Triage.run_publishers
    have hholds : Http.Holds (answerText Triage.writer
        ⟨Triage.version, Triage.drafted.graphOf Triage.version⟩) _ :=
      Triage.holds_answer (by decide) (by decide +kernel) (by decide +kernel)
    obtain ⟨d, _, _, _, hload, -, _, -, -, -, ⟨_, hd, -, -, hshown⟩ | ⟨e, he, -⟩ | ⟨e, he, -⟩⟩ :=
      publish_as_shown Triage.reachable_drafted (by decide +kernel) hholds hrun (k := false) hid
        Triage.call_publishes (Triage.leftAlone_publishers Triage.reachable_drafted) hanswer
        fun format _ => format
    · cases hd
      exact ⟨trace, sys, d, hturns, hload, hanswer, hlate,
        hshown _ (Triage.holds_answer (by decide) (by decide +kernel) (by decide +kernel))⟩
    · cases he
    · cases he
  · obtain ⟨trace, sys, hrun, hanswer, hother⟩ := Triage.run_publishers_incomplete
    have hholds : Http.Holds (answerText Triage.writer Triage.rootless) _ :=
      Triage.holds_answer (by decide) (by decide +kernel) (by decide +kernel)
    have hcount : Triage.rootless.graph.validate.length = 2 := by decide +kernel
    obtain ⟨d, _, _, _, hload, -, _, -, -, -,
        ⟨_, hd, -⟩ | ⟨e, he, -, hcode⟩ | ⟨e, he, -, -, hshown⟩⟩ :=
      publish_as_shown Triage.reachable_incomplete (by decide +kernel) hholds hrun (k := false) hid
        Triage.call_publishes (Triage.leftAlone_publishers Triage.reachable_incomplete) hanswer
        fun format _ => format
    · cases hd
    · cases he
      cases hcode
    · cases he
      obtain ⟨shown, issues, hrequest, hissues, rfl, hform⟩ := hshown _ (holds_errorBody _ _ _)
      exact ⟨sys, d, shown, _, hload, hanswer, hother, hrequest, hissues,
        (List.length_map _).trans hcount, hform⟩

end Interbellum
