/-!
# Application errors

The single error type that crosses the layers, and its stable codes. A message is kept as
the format string of the source together with its arguments, so that two errors are equal
exactly when they were built by the same call site from the same values.
-/

namespace Interbellum

/-- Identifiers are opaque tokens: the code compares and orders them, and singles out the
zero value. -/
abbrev UUID := Nat

/-- `uuid.Nil` -/
def UUID.nil : UUID := 0

/-- An instant; only equality and the order of instants matter. -/
abbrev Time := Nat

inductive Code where
  | badRequest
  | validationFailed
  | notFound
  | conflict
  | versionNotDraft
  | versionNotPublished
  | invalidPlaybookGraph
  | investigationCompleted
  | invalidTransition
  | idempotencyKeyReused
  | alertTypeMismatch
  | methodNotAllowed
  | payloadTooLarge
  | notReady
  | internal
  deriving DecidableEq, Repr

/-- An argument of a message format. -/
inductive Arg where
  | uuid (id : UUID)
  | str (s : String)
  | int (n : Int)
  deriving DecidableEq, Repr

/-- `apperror.Error`, with details of type `δ`. -/
structure Error (δ : Type) where
  code : Code
  format : String
  args : List Arg
  details : List δ
  deriving DecidableEq, Repr

namespace Error

variable {δ : Type}

def new (code : Code) (format : String) (args : List Arg) : Error δ := ⟨code, format, args, []⟩

def badRequest (format : String) (args : List Arg) : Error δ := new .badRequest format args

def validation (format : String) (args : List Arg) : Error δ := new .validationFailed format args

def notFound (resource : String) : Error δ := new .notFound "%s not found" [.str resource]

/-- The client-facing message is fixed; the cause is kept for logs only. -/
def internal : Error δ := new .internal "internal server error" []

end Error

end Interbellum
