import Mathlib.Data.List.Sort
import Interbellum.Domain.Json
import Interbellum.Http.Decode

/-!
# JSON objects of a request

Members whose values the server does not look into keep their text until the database reads
it. `jsonb` takes neither U+0000 nor a surrogate without its pair; a text with either is read
here as one with U+0000.
-/

namespace Interbellum.Http

open Utf16 (Text)
open JsonText (Doc)

def jsonbText (t : Text) : String := if t.wellFormed then t.toUnicode else "\x00"

mutual

/-- What the database reads. -/
def toJson : Doc → Json
  | .null => .null
  | .bool b => .bool b
  | .num q _ => .num q
  | .str t => .str (jsonbText t)
  | .arr items => .arr (toJsonItems items)
  | .obj members => .obj (toJsonMembers members)

def toJsonItems : List Doc → List Json
  | [] => []
  | d :: rest => toJson d :: toJsonItems rest

def toJsonMembers : List (Text × Doc) → List (String × Json)
  | [] => []
  | (k, d) :: rest => (jsonbText k, toJson d) :: toJsonMembers rest

end

/-- The object as the text that goes to the database, or nothing when it is absent or empty.
The members of a map are written in the order of their names. -/
def marshalObject (obj : Option (List (String × Doc))) : Option Json :=
  match obj.getD [] with
  | [] => none
  | entries =>
    some (.obj ((entries.insertionSort fun a b => a.1 ≤ b.1).map fun e => (e.1, toJson e.2)))

end Interbellum.Http
