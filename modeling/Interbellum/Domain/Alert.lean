import Interbellum.Domain.AppError
import Interbellum.Domain.Json

/-!
# Alerts

What an upstream system reports. The payload is opaque to the engine; an absent one is
stored as an empty object.
-/

namespace Interbellum

structure Alert where
  id : UUID
  externalID : Option String
  alertType : String
  title : String
  description : String
  payload : Json
  occurredAt : Time
  createdAt : Time
  deriving DecidableEq

structure NewAlert where
  externalID : Option String
  alertType : String
  title : String
  description : String
  payload : Option Json
  occurredAt : Time
  deriving DecidableEq

end Interbellum
