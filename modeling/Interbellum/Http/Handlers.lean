import Interbellum.Http.Decision
import Interbellum.Http.Playbook
import Interbellum.Server.Operations

/-!
# Request handlers

A handler reads the path and the body of a request before it calls the service.
-/

namespace Interbellum.Http

open Utf16 (Text)

variable (parse : String → Option UUID)

/-- A path parameter that is not a UUID is refused before it reaches the database. -/
def pathUUID (name raw : String) : Except AppError UUID :=
  match parse raw with
  | some id => .ok id
  | none => .error (.badRequest "%s must be a UUID, got %q" [.str name, .str raw])

/-- `PUT /api/v1/playbook-versions/{versionId}` -/
def replaceGraph (versionID contentType : String) (body : Text) : Client :=
  match pathUUID parse "versionId" versionID with
  | .error e => .ret (.error e)
  | .ok id =>
    match decodeJSON (graphInput parse) contentType body with
    | .error e => .ret (.error e.app)
    | .ok req => (Operation.submitGraph id req.toGraph).call

def maxIdempotencyKeyLength : ℕ := 255

/-- The key of a header; a blank one is no key. -/
def idempotencyKeyFrom (header : String) : Except AppError (Option String) :=
  let raw := String.ofList (trimSpace header.toList)
  if raw = "" then .ok none
  else if maxIdempotencyKeyLength < raw.utf8ByteSize then
    .error (.badRequest "%s must be at most %d characters"
      [.str "Idempotency-Key", .int maxIdempotencyKeyLength])
  else .ok (some raw)

/-- `POST /api/v1/investigations/{investigationId}/decisions` -/
def submitDecision (stepID : UUID) (now txNow : Time)
    (investigationID idempotencyKey contentType : String) (body : Text) : Client :=
  match pathUUID parse "investigationId" investigationID with
  | .error e => .ret (.error e)
  | .ok id =>
    match idempotencyKeyFrom idempotencyKey with
    | .error e => .ret (.error e)
    | .ok key =>
      match decodeJSON (submitDecisionRequest parse) contentType body with
      | .error e => .ret (.error e.app)
      | .ok req => (Operation.submit ⟨stepID, now, txNow, id, req.toDecisionInput key⟩).call

end Interbellum.Http
