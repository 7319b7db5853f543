import Interbellum.Postgres.AlertRepository

/-!
# The alert service

The payload of a request is parsed before it gets here, so the check that it is valid JSON
has nothing left to reject.
-/

namespace Interbellum

namespace AlertService

/-- `time.Time{}` -/
def zeroTime : Time := 0

def create (id : UUID) (now : Time) (input : NewAlert) : Svc (Alert × Bool) :=
  if input.alertType = "" then throw (.validation "alert_type is required" [])
  else if input.title = "" then throw (.validation "title is required" [])
  else if input.occurredAt = zeroTime then throw (.validation "occurred_at is required" [])
  else if input.externalID = some "" then
    throw (.validation "external_id must not be empty when provided" [])
  else AlertRepository.create id now input

end AlertService

end Interbellum
