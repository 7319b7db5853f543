import Interbellum.Frontend.Loading
import Interbellum.Http.Errors

/-!
# Failed requests in the console

What the console makes of a response that is not a success, and which problems of a graph it shows.

* `request_errorBody`: the envelope of the server is read back.
-/

namespace Interbellum.Frontend

open Utf16 (Text)
open JsonText (Doc)
open Ecma (Value)

structure ApiError where
  status : ℕ
  code : Value
  detail : Value
  details : Option Value

/-- What `||` takes for true; `none` is undefined. -/
def truthy : Option Value → Bool
  | none | some .null | some (.bool false) => false
  | some (.num (.finite x)) => x.value ≠ 0
  | some (.str t) => t ≠ []
  | some _ => true

/-- The constructor of an `ApiError`. -/
def ApiError.of (status : ℕ) (body : Value) : ApiError where
  status := status
  code :=
    match property "code" body with
    | some code => if truthy (some code) then code else .str (.ofString "UNKNOWN")
    | none => .str (.ofString "UNKNOWN")
  detail :=
    match property "message" body with
    | none | some .null => .str (.ofString "")
    | some message => message
  details := property "details" body

/-- A response: its status, and its body as text. -/
def request (status : ℕ) (text : Text) : Except ApiError Value :=
  let success := 200 ≤ status ∧ status < 300
  match if text = [] then some .null else Ecma.parseJson text with
  | none =>
    if success then .ok .null
    else .error (.of status (.obj [(.ofString "code", .str (.ofString "BAD_GATEWAY_RESPONSE")),
      (.ofString "message", .str (text.take 300))]))
  | some .null =>
    if success then .ok .null
    else .error (.of status (.obj [(.ofString "code", .str (.ofString "INTERNAL_ERROR")),
      (.ofString "message", .str (.ofString ("request failed with status " ++ toString status)))]))
  | some body => if success then .ok body else .error (.of status body)

structure GraphValidationIssue where
  nodeId : Option Value
  edgeId : Option Value
  reason : Text

def asGraphIssue (detail : Value) : Option GraphValidationIssue :=
  match property "reason" detail with
  | some (.str reason) => some ⟨property "node_id" detail, property "edge_id" detail, reason⟩
  | _ => none

/-- The problems that `ErrorNotice` lists; it throws at details that are no array. -/
def ApiError.issues (e : ApiError) : Option (List GraphValidationIssue) :=
  match e.details with
  | none | some .null => some []
  | some (.arr items) => some (items.filterMap asGraphIssue)
  | some _ => none

/-! ## What is read of an envelope -/

section

open Http.Response (Writer entry text idMember issueDoc detailsMember errorBody)

variable (w : Writer)

/-- How the console has a problem. -/
def shownIssue (i : ValidationIssue) : GraphValidationIssue where
  nodeId := i.nodeID.map fun id => .str (.ofString (w.id id))
  edgeId := i.edgeID.map fun id => .str (.ofString (w.id id))
  reason := .ofString i.reason.text

theorem property_idMember {members : List (Text × Doc)} {name : String} (id : Option UUID)
    (hnodup : (members.map Prod.fst).Nodup) (hmem : ∀ m ∈ idMember w name id, m ∈ members)
    (hnone : id = none → Text.ofString name ∉ members.map Prod.fst) :
    property name (Ecma.ofDoc (.obj members)) = id.map fun id => .str (.ofString (w.id id)) := by
  cases id with
  | none => exact property_of_not_mem hnodup (hnone rfl)
  | some id => exact property_of_mem hnodup (hmem _ (List.mem_singleton_self _))

theorem asGraphIssue_issueDoc (i : ValidationIssue) :
    asGraphIssue (Ecma.ofDoc (issueDoc w i)) = some (shownIssue w i) := by
  let names : List Text := [.ofString "node_id", .ofString "edge_id", .ofString "reason"]
  let members := idMember w "node_id" i.nodeID ++ idMember w "edge_id" i.edgeID ++
    [entry "reason" (text i.reason.text)]
  have hdistinct : names.Nodup := by decide +kernel
  have hsub : (members.map Prod.fst).Sublist names := by
    cases hn : i.nodeID <;> cases he : i.edgeID <;>
      simp [members, names, idMember, hn, he, entry]
  have hnodup : (members.map Prod.fst).Nodup := hsub.nodup hdistinct
  have hreason : property "reason" (Ecma.ofDoc (.obj members)) =
      some (Ecma.ofDoc (text i.reason.text)) := property_of_mem hnodup (by simp [members])
  have hne : Text.ofString "node_id" ≠ .ofString "edge_id" ∧
      Text.ofString "node_id" ≠ .ofString "reason" ∧
        Text.ofString "edge_id" ≠ .ofString "reason" := by
    decide +kernel
  have hnode : property "node_id" (Ecma.ofDoc (.obj members)) =
      i.nodeID.map fun id => .str (.ofString (w.id id)) := by
    refine property_idMember w i.nodeID hnodup ?_ ?_
    · exact fun m hm => List.mem_append_left _ (List.mem_append_left _ hm)
    · intro hn
      cases he : i.edgeID <;> simp [members, idMember, entry, hn, he, hne]
  have hedge : property "edge_id" (Ecma.ofDoc (.obj members)) =
      i.edgeID.map fun id => .str (.ofString (w.id id)) := by
    refine property_idMember w i.edgeID hnodup ?_ ?_
    · exact fun m hm => List.mem_append_left _ (List.mem_append_right _ hm)
    · intro he
      cases hn : i.nodeID <;> simp [members, idMember, entry, hn, he, hne, hne.1.symm]
  show asGraphIssue (Ecma.ofDoc (.obj members)) = _
  rw [asGraphIssue, hreason, hnode, hedge]
  rfl

theorem text_ne_nil (code : Code) : Text.ofString code.text ≠ [] := by
  cases code <;> decide +kernel

theorem statusFor_range (code : Code) :
    ¬ (200 ≤ Http.statusFor code ∧ Http.statusFor code < 300) := by
  cases code <;> decide

section

variable (message : String → List Arg → String) (e : AppError)

theorem names_errorBody : (([entry "code" (text e.code.text),
    entry "message" (text (message e.format e.args))] ++
      detailsMember w e.details).map Prod.fst).Nodup := by
  have hdistinct : [Text.ofString "code", .ofString "message", .ofString "details"].Nodup := by
    decide +kernel
  cases e.details with
  | nil => exact hdistinct.sublist (List.prefix_append [_, _] [_]).sublist
  | cons i rest => exact hdistinct

/-- All details of an envelope are problems of a graph. -/
theorem issues_errorBody (status : ℕ) :
    (ApiError.of status (Ecma.ofDoc (errorBody w message e))).issues =
      some (e.details.map (shownIssue w)) := by
  have hnodup := names_errorBody w message e
  cases hd : e.details with
  | nil =>
    have hnone : property "details" (Ecma.ofDoc (errorBody w message e)) = none := by
      refine property_of_not_mem hnodup ?_
      rw [hd]
      show Text.ofString "details" ∉ [Text.ofString "code", .ofString "message"]
      decide +kernel
    simp only [ApiError.issues, ApiError.of, hnone, List.map_nil]
  | cons i rest =>
    have hsome : property "details" (Ecma.ofDoc (errorBody w message e)) =
        some (Ecma.ofDoc (.arr (e.details.map (issueDoc w)))) := by
      refine property_of_mem hnodup (List.mem_append_right _ ?_)
      rw [hd]
      exact List.mem_singleton_self _
    have hitems : Ecma.ofDoc (.arr (e.details.map (issueDoc w))) =
        .arr ((e.details.map (issueDoc w)).map Ecma.ofDoc) := congrArg Value.arr (ofItems_eq _)
    simp only [ApiError.issues, ApiError.of, hsome, hitems, ← hd, List.map_map]
    rw [List.filterMap_map, ← List.filterMap_eq_map]
    congr 2
    ext i : 1
    exact asGraphIssue_issueDoc w i

/-- Every envelope of the server is an error with its status, code and message, and all the
problems in it are shown, in their order. -/
theorem request_errorBody {body : Text} (h : Http.Holds body (errorBody w message e)) :
    ∃ shown, request (Http.statusFor e.code) body = .error shown ∧
      shown.status = Http.statusFor e.code ∧ shown.code = .str (.ofString e.code.text) ∧
      shown.detail = .str (.ofString (message e.format e.args)) ∧
      shown.issues = some (e.details.map (shownIssue w)) := by
  have hnodup := names_errorBody w message e
  have hcode : property "code" (Ecma.ofDoc (errorBody w message e)) =
      some (Ecma.ofDoc (text e.code.text)) := property_of_mem hnodup (by simp)
  have hmessage : property "message" (Ecma.ofDoc (errorBody w message e)) =
      some (Ecma.ofDoc (text (message e.format e.args))) := property_of_mem hnodup (by simp)
  have hparse : Ecma.parseJson body = some (Ecma.ofDoc (errorBody w message e)) :=
    Ecma.parseJson_of_holds h
  have hne : body ≠ [] := by
    rintro rfl
    cases hparse
  refine ⟨.of (Http.statusFor e.code) (Ecma.ofDoc (errorBody w message e)), ?_, rfl, ?_, ?_,
    issues_errorBody w message e _⟩
  · simp only [request, if_neg hne, hparse]
    exact if_neg (statusFor_range e.code)
  · have htruthy : truthy (some (.str (.ofString e.code.text))) = true :=
      decide_eq_true (text_ne_nil e.code)
    simp only [ApiError.of, hcode]
    exact if_pos htruthy
  · simp only [ApiError.of, hmessage]
    rfl

end

end

end Interbellum.Frontend
