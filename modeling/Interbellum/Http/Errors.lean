import Interbellum.Http.Encode
import Interbellum.Http.Handlers

/-!
# Errors in responses

The status and the envelope of a failed request. An envelope without details has no member for
them, and a problem of a graph names a node, an edge or neither.
-/

namespace Interbellum

def Code.text : Code → String
  | .badRequest => "BAD_REQUEST"
  | .validationFailed => "VALIDATION_FAILED"
  | .notFound => "RESOURCE_NOT_FOUND"
  | .conflict => "CONFLICT"
  | .versionNotDraft => "PLAYBOOK_VERSION_NOT_DRAFT"
  | .versionNotPublished => "PLAYBOOK_VERSION_NOT_PUBLISHED"
  | .invalidPlaybookGraph => "INVALID_PLAYBOOK_GRAPH"
  | .investigationCompleted => "INVESTIGATION_ALREADY_COMPLETED"
  | .invalidTransition => "INVALID_TRANSITION"
  | .idempotencyKeyReused => "IDEMPOTENCY_KEY_REUSED"
  | .alertTypeMismatch => "ALERT_TYPE_MISMATCH"
  | .methodNotAllowed => "METHOD_NOT_ALLOWED"
  | .payloadTooLarge => "PAYLOAD_TOO_LARGE"
  | .notReady => "NOT_READY"
  | .internal => "INTERNAL_ERROR"

namespace Http

open JsonText (Doc)

def statusFor : Code → ℕ
  | .badRequest | .validationFailed => 400
  | .notFound => 404
  | .conflict | .versionNotDraft | .versionNotPublished | .investigationCompleted
  | .invalidTransition | .idempotencyKeyReused | .alertTypeMismatch => 409
  | .methodNotAllowed => 405
  | .invalidPlaybookGraph => 422
  | .payloadTooLarge => 413
  | .notReady => 503
  | .internal => 500

/-- `POST /api/v1/playbook-versions/{versionId}/publish` -/
def publish (parse : String → Option UUID) (now : Time) (versionID : String) : Client :=
  match pathUUID parse "versionId" versionID with
  | .error e => .ret (.error e)
  | .ok id => (Operation.publish id now).call

namespace Response

variable (w : Writer)

/-- A member that is left out when there is nothing to point to. -/
def idMember (name : String) (id : Option UUID) : List (Utf16.Text × Doc) :=
  id.toList.map fun id => entry name (text (w.id id))

def issueDoc (i : ValidationIssue) : Doc :=
  .obj (idMember w "node_id" i.nodeID ++ idMember w "edge_id" i.edgeID ++
    [entry "reason" (text i.reason.text)])

def detailsMember : List ValidationIssue → List (Utf16.Text × Doc)
  | [] => []
  | details => [entry "details" (.arr (details.map (issueDoc w)))]

/-- `message` is what `fmt.Sprintf` makes of a format and its arguments. -/
def errorBody (message : String → List Arg → String) (e : AppError) : Doc :=
  .obj ([entry "code" (text e.code.text), entry "message" (text (message e.format e.args))] ++
    detailsMember w e.details)

end Response

end Http

end Interbellum
