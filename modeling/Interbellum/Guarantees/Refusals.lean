import Interbellum.Domain.GraphIssues
import Interbellum.Frontend.ApiError
import Interbellum.Invariant.Writing
import Interbellum.Server.Operations

/-!
# Refused publications

A version is published, or the editor is told why not.

* `publish_shown`: every answer tells the state in which it was decided, also after it has been
  written, read and shown.
-/

namespace Interbellum

open PlaybookRepository
open Frontend (request shownIssue)
open Http.Response (Writer errorBody)
open Utf16 (Text)

/-! ## The transaction -/

/-- Why a version cannot be published, and which problems its graph has. -/
inductive Refusal (s : Store) (id : UUID) : Code → List ValidationIssue → Prop
  | missing (h : ∀ v ∈ s.versions, v.id ≠ id) : Refusal s id .notFound []
  | frozen {v : Version} (hv : v ∈ s.versions) (hid : v.id = id) (h : v.status ≠ .draft) :
      Refusal s id .versionNotDraft []
  | invalid {v : Version} (hv : v ∈ s.versions) (hid : v.id = id) (hdraft : v.status = .draft)
      (h : (s.graphOf v).validate ≠ []) :
      Refusal s id .invalidPlaybookGraph (s.graphOf v).validate

/-- The version is a draft without problems, and is published as it is. -/
structure Published (s : Store) (id : UUID) (now : Time) (d : Definition) (t : Store) : Prop where
  row : ∃ v ∈ s.versions, v.id = id ∧ v.status = .draft ∧ (s.graphOf v).validate = [] ∧
    d = ⟨v.published now, s.graphOf v⟩
  store : t = s.write (.setPublished id now)

section

variable {s : Store} {id : UUID} {now : Time}

theorem run_loadGraph (id : UUID) (root : Option UUID) (s : Store) (ws : List Write) :
    (loadGraph id root).run.run s ws =
      (.ok ⟨root, sortNodes ((Txn.applyAll ws s).nodesOf id),
        sortEdgeRows ((Txn.applyAll ws s).edgesOf id)⟩, ws) := by
  simp only [loadGraph, selectNodes, selectEdges, Txn.Body.run_bind_except, run_sql, Answer.read,
    Except.mapError, List.append_nil]
  rfl

/-- The row is marked, and its graph stays as it is. -/
theorem run_setPublished (hs : Valid s) {v : Version} (hv : v ∈ s.versions) (now : Time) :
    (setPublished v.id now).run.run s [] = (.ok (), [.setPublished v.id now]) ∧
      ((s.write (.setPublished v.id now)).versionRows v.id).head? = some (v.published now) := by
  have hrow : s.versionRows v.id = [v] := hs.toDesign.versionRows_eq hv
  constructor
  · rw [setPublished, run_sql, Txn.applyAll_nil, hrow]
    rfl
  · show ((updateWhere _ _ s.versions).filter _).head? = _
    rw [filter_updateWhere fun w => show decide ((w.published now).id = v.id) = _ from rfl]
    show (updateWhere _ _ (s.versionRows v.id)).head? = _
    rw [hrow]
    simp [updateWhere]

theorem run_publishBody (hs : Valid s) (id : UUID) (now : Time) :
    (∃ d, (publishBody id now).run.run s [] = (.ok d, [.setPublished id now]) ∧
      Published s id now d (s.write (.setPublished id now))) ∨
    ∃ e, (publishBody id now).run.run s [] = (.error (.app e), []) ∧
      Refusal s id e.code e.details := by
  rw [publishBody, Txn.Body.run_bind_except, lockVersion, run_sql]
  cases hrow : (s.versionRows id).head? with
  | none =>
    have hmissing : ∀ v ∈ s.versions, v.id ≠ id := by
      rw [Store.versionRows, List.head?_filter] at hrow
      simpa using hrow
    simp only [Txn.applyAll_nil, hrow]
    exact .inr ⟨_, rfl, .missing hmissing⟩
  | some v =>
    obtain ⟨hv, rfl⟩ := mem_versionRows.mp (List.mem_of_mem_head? hrow)
    simp only [Txn.applyAll_nil, hrow, Answer.lockRow, Except.mapError, List.append_nil]
    by_cases hdraft : v.status = .draft
    · have hisDraft : v.isDraft = true := decide_eq_true hdraft
      have hgraph : (⟨v.rootNodeID, sortNodes (s.nodesOf v.id), sortEdgeRows (s.edgesOf v.id)⟩ :
        Graph) = s.graphOf v := rfl
      simp only [hisDraft, if_true, Txn.Body.run_bind_except, run_loadGraph, Txn.applyAll_nil,
        hgraph]
      by_cases hvalid : (s.graphOf v).validate = []
      · obtain ⟨hset, hmarked⟩ := run_setPublished hs hv now
        have hload : (loadDefinition v.id).run.run s [.setPublished v.id now] =
            (.ok ⟨v.published now, s.graphOf v⟩, [.setPublished v.id now]) :=
          run_loadDefinition hmarked
        simp only [hvalid, if_true, Txn.Body.run_bind_except, hset, hload]
        exact .inl ⟨_, rfl, ⟨v, hv, rfl, hdraft, hvalid, rfl⟩, rfl⟩
      · simp only [hvalid, if_false]
        exact .inr ⟨_, rfl, .invalid hv rfl hdraft hvalid⟩
    · have hisDraft : v.isDraft = false := decide_eq_false hdraft
      simp only [hisDraft]
      exact .inr ⟨_, rfl, .frozen hv rfl hdraft⟩

theorem publish_of_call (hs : Valid s) {r : Except AppError Reply} {t : Store}
    (hcall : (Operation.publish id now).call.run s = (r, t)) :
    (∃ d, r = .ok (.definition d) ∧ Published s id now d t) ∨
      t = s ∧ ∃ e, r = .error e ∧ Refusal s id e.code e.details := by
  have hreply : (Operation.publish id now).call.run s =
      (((publish id now).run.run s).1.map .definition, ((publish id now).run.run s).2) :=
    run_reply _ _ s
  rw [hreply, publish, run_inTx] at hcall
  rcases run_publishBody hs id now with ⟨d, hbody, hpublished⟩ | ⟨e, hbody, hrefusal⟩
  · simp only [hbody] at hcall
    obtain ⟨rfl, rfl⟩ := Prod.mk.inj hcall
    exact .inl ⟨d, rfl, hpublished⟩
  · simp only [hbody] at hcall
    obtain ⟨rfl, rfl⟩ := Prod.mk.inj hcall
    exact .inr ⟨rfl, e, rfl, hrefusal⟩

/-- A request to publish, in the middle of other clients. -/
theorem publish_decided {ι : Type} [DecidableEq ι] (h : Reachable s) {ops : ι → Operation}
    {trace : List (ι × Txn.Event)} {sys : Server ι} (hrun : Txn.Run (clients s ops) trace sys)
    {k : ι} (hop : (ops k).call = (Operation.publish id now).call) {r : Except AppError Reply}
    (hanswer : sys.session k = .idle (.ret r)) :
    ∃ event before after, Txn.Around k event (clients s ops) trace sys before after ∧
      Valid before.store ∧
      ((∃ d, r = .ok (.definition d) ∧ Published before.store id now d after.store) ∨
        after.store = before.store ∧ ∃ e, r = .error e ∧
          Refusal before.store id e.code e.details) := by
  have hsingle : (ops k).call.Single := by
    rw [hop]
    exact single_inTx _ _
  rcases (tracked_clients h.valid ops).single_answer hsingle hrun hanswer with
    hret | ⟨event, before, after, hat, hcall⟩
  · rw [hop] at hret
    cases hret
  · refine ⟨event, before, after, hat, ?_⟩
    obtain ⟨_, _, -, hbefore, -, -⟩ := hat
    have hvalid : Valid before.store := (h.run hbefore).valid
    rw [hop] at hcall
    exact ⟨hvalid, publish_of_call hvalid hcall⟩

theorem call_publish {parse : String → Option UUID} {versionID : String}
    (hid : parse versionID = some id) :
    Http.publish parse now versionID = (Operation.publish id now).call := by
  rw [Http.publish, Http.pathUUID, hid]

end

/-! ## The problems of a draft -/

/-- The database keeps the root and the ends of the edges, so a problem is that there is no root,
or it is one of a node. -/
theorem Graph.Closed.names_node {g : Graph} (h : g.Closed) {i : ValidationIssue}
    (hi : i ∈ g.validate) : g.rootNodeID = none ∧ i = ⟨none, none, .missingRoot⟩ ∨
      ∃ n ∈ g.nodes, ∃ reason, i = .ofNode n.id reason := by
  rcases Graph.mem_validate.mp hi with hproblem | hcycle
  · cases hproblem with
    | missingRoot hroot => exact .inl ⟨hroot, rfl⟩
    | danglingRoot hroot hnone =>
      obtain ⟨n, hn, hid⟩ := h.root _ hroot
      exact absurd hid (hnone n hn)
    | danglingEdge he hnot =>
      rw [Graph.joined_iff.mpr (h.edges _ he)] at hnot
      cases hnot
    | withoutEdges hn => exact .inr ⟨_, hn, _, rfl⟩
    | withResolution hn => exact .inr ⟨_, hn, _, rfl⟩
    | withEdges hn => exact .inr ⟨_, hn, _, rfl⟩
    | missingResolution hn => exact .inr ⟨_, hn, _, rfl⟩
    | unreachable _ _ hn => exact .inr ⟨_, hn, _, rfl⟩
  · obtain ⟨n, hn, -, rfl⟩ := Graph.mem_detectCycles.mp hcycle
    exact .inr ⟨n, hn, _, rfl⟩

theorem Refusal.nodup {s : Store} (hs : Valid s) {id : UUID} {code : Code}
    {issues : List ValidationIssue} (h : Refusal s id code issues) : issues.Nodup := by
  cases h with
  | missing => exact List.nodup_nil
  | frozen => exact List.nodup_nil
  | invalid => exact Graph.validate_nodup (hs.node_ids_nodup _) (hs.edge_ids_nodup _)

theorem Refusal.names_node {s : Store} (hs : Valid s) {id : UUID} {code : Code}
    {issues : List ValidationIssue} (h : Refusal s id code issues) {i : ValidationIssue}
    (hi : i ∈ issues) : i = ⟨none, none, .missingRoot⟩ ∨
      ∃ n ∈ s.nodesOf id, ∃ reason, i = .ofNode n.id reason := by
  cases h with
  | missing => cases hi
  | frozen => cases hi
  | invalid hv hid =>
    refine ((hs.closed hv).names_node hi).imp And.right ?_
    rintro ⟨n, hn, hreason⟩
    exact ⟨n, hid ▸ mem_graphOf_nodes.mp hn, hreason⟩

/-! ## What the editor shows -/

/-- A client asks for a version to be published, among any other clients. The answer is that of
one committed state: the draft has no problem then and is published as it is, or nothing changes,
and from the envelope of the error the editor shows the status and the code of what was wrong, and
all the problems of the graph in their order, each once and with a node that the version has. -/
theorem publish_shown {ι : Type} [DecidableEq ι] {s : Store} (h : Reachable s)
    {ops : ι → Operation} {trace : List (ι × Txn.Event)} {sys : Server ι}
    (hrun : Txn.Run (clients s ops) trace sys) {k : ι} {parse : String → Option UUID}
    {versionID : String} {id : UUID} {now : Time} (hid : parse versionID = some id)
    (hsent : (ops k).call = Http.publish parse now versionID) {r : Except AppError Reply}
    (hanswer : sys.session k = .idle (.ret r)) (w : Writer)
    (message : String → List Arg → String) :
    ∃ event before after, Txn.Around k event (clients s ops) trace sys before after ∧
      ((∃ d, r = .ok (.definition d) ∧ Published before.store id now d after.store) ∨
        after.store = before.store ∧ ∃ e, r = .error e ∧
          Refusal before.store id e.code e.details ∧ e.details.Nodup ∧
          (∀ i ∈ e.details, i = ⟨none, none, .missingRoot⟩ ∨
            ∃ n ∈ before.store.nodesOf id, ∃ reason, i = .ofNode n.id reason) ∧
          ∀ body, Http.Holds body (errorBody w message e) → ∃ shown,
            request (Http.statusFor e.code) body = .error shown ∧
            shown.status = Http.statusFor e.code ∧ shown.code = .str (.ofString e.code.text) ∧
            shown.issues = some (e.details.map (shownIssue w))) := by
  obtain ⟨event, before, after, hat, hvalid, hdone | ⟨hsame, e, he, hrefusal⟩⟩ :=
    publish_decided h hrun (hsent.trans (call_publish hid)) hanswer
  · exact ⟨event, before, after, hat, .inl hdone⟩
  · refine ⟨event, before, after, hat, .inr ⟨hsame, e, he, hrefusal, hrefusal.nodup hvalid,
      fun i hi => hrefusal.names_node hvalid hi, fun body hbody => ?_⟩⟩
    obtain ⟨shown, hrequest, hstatus, hcode, -, hissues⟩ :=
      Frontend.request_errorBody w message e hbody
    exact ⟨shown, hrequest, hstatus, hcode, hissues⟩

/-- An envelope can be written. -/
theorem holds_errorBody (w : Writer) (message : String → List Arg → String) (e : AppError) :
    Http.Holds ((Ecma.jsonStyle 0).print (errorBody w message e)) (errorBody w message e) := by
  have hissue : ∀ i ∈ e.details, (Ecma.jsonStyle 0).Prints (Http.Response.issueDoc w i) := by
    intro i _
    obtain ⟨n, edge, reason⟩ := i
    cases n <;> cases edge
    · exact ⟨trivial, trivial⟩
    · exact ⟨trivial, trivial, trivial⟩
    · exact ⟨trivial, trivial, trivial⟩
    · exact ⟨trivial, trivial, trivial, trivial⟩
  refine Ecma.holds_print ⟨trivial, trivial, ?_⟩
  cases hd : e.details with
  | nil => exact trivial
  | cons i rest => exact ⟨Frontend.printsItems_map (hd ▸ hissue), trivial⟩

namespace Triage

/-- One question that leads nowhere, and no root. -/
def unfinished : Graph := ⟨none, [⟨10, .decision, "Is it real?", "", none, none⟩], []⟩

def refused : AppError :=
  validationError [.ofNode 10 .decisionNodeWithoutEdges, ⟨none, none, .missingRoot⟩]

def refusedText : Text :=
  (Ecma.jsonStyle 0).print (errorBody (.canonical toString) (fun format _ => format) refused)

/-- A client that publishes, and one that saves another graph. -/
def publishesAndSpoils : Bool → Operation
  | false => .publish 2 8
  | true => .replaceGraph 2 unfinished

/-- The request to publish, as it is sent. -/
theorem call_publishes : (Operation.publish 2 8).call =
    Http.publish Http.Response.readID 8 (Http.Response.idText 2) :=
  (call_publish (Http.Response.readID_idText 2)).symm

end Triage

/-- The graph was without problems when the request to publish began, and is replaced before it has
the lock of the version. The problems are those of the graph that is there by then. -/
theorem publish_shown_triage : ∃ (sys : Server Bool) (d : Definition)
    (shown : Frontend.ApiError),
    (Triage.drafted.graphOf ⟨2, 1, 1, .draft, some 10, 7, none⟩).validate = [] ∧
    sys.session true = .idle (.ret (.ok (.definition d))) ∧
    sys.session false = .idle (.ret (.error Triage.refused)) ∧
    request 422 Triage.refusedText = .error shown ∧
    shown.issues = some [⟨some (.str (.ofString (Http.Response.idText 10))), none,
      .ofString "decision_node_without_edges"⟩, ⟨none, none, .ofString "missing_root"⟩] := by
  let saved : Definition := ⟨⟨2, 1, 1, .draft, none, 7, none⟩, Triage.unfinished⟩
  obtain ⟨trace, sys, hrun, hsaved, hanswer⟩ : ∃ trace sys,
      Txn.Run (clients Triage.drafted Triage.publishesAndSpoils) trace sys ∧
      (sys.session true).answer? = some (.ok (.definition saved)) ∧
      (sys.session false).answer? = some (.error Triage.refused) :=
    ⟨_, _, Txn.run_follow (false :: (List.replicate 20 true ++ List.replicate 20 false)) _,
      by decide +kernel, by decide +kernel⟩
  have hsaved := Txn.Session.eq_of_answer? hsaved
  have hanswer := Txn.Session.eq_of_answer? hanswer
  obtain ⟨_, _, _, -, ⟨d, hd, -⟩ | ⟨-, e, he, -, -, -, hshown⟩⟩ :=
    publish_shown Triage.reachable_drafted hrun (k := false) (Http.Response.readID_idText 2)
      Triage.call_publishes hanswer (.canonical toString) fun format _ => format
  · cases hd
  · cases he
    obtain ⟨shown, hrequest, -, -, hissues⟩ := hshown _ (holds_errorBody _ _ _)
    exact ⟨sys, saved, shown, by decide +kernel, hsaved, hanswer, hrequest, hissues⟩

end Interbellum
