import Interbellum.Postgres.Statement

/-!
# The alert repository

Alerts are written once and never change. An insert that meets an alert with the same
external id inserts nothing, and the stored alert is read instead.
-/

namespace Interbellum

namespace AlertRepository

/-- `INSERT ... ON CONFLICT (external_id) WHERE external_id IS NOT NULL DO NOTHING` -/
def insertAlert (id : UUID) (now : Time) (input : NewAlert) : Db Alert :=
  sql (fun s =>
    let row : Alert :=
      { id := id
        externalID := input.externalID
        alertType := input.alertType
        title := input.title
        description := input.description
        payload := (input.payload.getD (.obj [])).jsonb
        occurredAt := input.occurredAt
        createdAt := now }
    .guarded
      [(!(input.externalID.all storableText && storableText input.alertType &&
          storableText input.title && storableText input.description &&
          input.payload.all Json.storable), .other),
       (input.externalID.any fun x => s.alerts.any fun a => a.externalID = some x, .noRows),
       (s.alerts.any (fun a => a.id = id), .pg .uniqueViolation "alerts_pkey")]
      ⟨.ok row,
        (.alert id, .update) :: input.externalID.toList.map fun x => (.externalID x, .update),
        [.insertAlert row]⟩) fun err => err

def selectAlert (id : UUID) : Db Alert :=
  sql (fun s => .row (s.alerts.find? fun a => a.id = id)) (notFound "alert")

def getByExternalID (externalID : String) : Db Alert :=
  sql (fun s => .row (s.alerts.find? fun a => a.externalID = some externalID))
    (notFound "alert")

/-- The flag tells whether this call created the alert. -/
def create (id : UUID) (now : Time) (input : NewAlert) : Svc (Alert × Bool) :=
  ExceptT.mk do
    let inserted ← pool (insertAlert id now input)
    match inserted, input.externalID with
    | .ok a, _ => return .ok (a, true)
    | .error .noRows, some externalID =>
      let existing ← (onPool (getByExternalID externalID)).run
      return existing.map fun a => (a, false)
    | .error err, _ => return .error (translate err)

def get (id : UUID) : Svc Alert := onPool (selectAlert id)

end AlertRepository

end Interbellum
