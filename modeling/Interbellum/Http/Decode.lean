import Interbellum.Domain.Investigation
import Interbellum.Text.Json

/-!
# Reading request bodies

A `Decoder` stores a document into a target of a Go type, as `encoding/json` does: null changes
nothing except that it makes pointers, slices and maps nil, and a member of an object goes to
the field of its name, or else of its name in other letter case. `Decoder.Fits` says which
documents a target of the type can take at all.

* `decodeJSON_eq_ok`: a body is read when it is one document that the target can take.
-/

namespace Interbellum.Http

open Utf16 (Text)
open JsonText (Doc)

/-- A value that the target cannot take. -/
inductive ValueError where
  | type (field : String) (type : String)
  | unknownField (name : String)
  /-- the error of an `UnmarshalText` method -/
  | text
  deriving DecidableEq, Repr

structure Decoder (τ : Type) where
  zero : τ
  run : List String → τ → Doc → Except ValueError τ
  /-- whether some `UnmarshalText` method does not read what it is given -/
  misread : Doc → Bool
  Fits : Doc → Prop
  fits : ∀ {path : List String} {old v : τ} {d : Doc}, run path old d = .ok v → Fits d

def ValueError.ofType (path : List String) (type : String) : ValueError :=
  .type (".".intercalate path) type

namespace Decoder

variable {τ σ : Type}

def string : Decoder String where
  zero := ""
  run path old
    | .null => .ok old
    | .str t => .ok t.toUnicode
    | _ => .error (.ofType path "string")
  misread _ := false
  Fits d := d = .null ∨ ∃ t, d = .str t
  fits {path old v d} h := by
    cases d with
    | null => exact .inl rfl
    | str t => exact .inr ⟨t, rfl⟩
    | _ => cases h

/-- A number that is written as an integer and fits into 64 bits. -/
def int : Decoder ℤ where
  zero := 0
  run path old
    | .null => .ok old
    | .num q plain =>
      if plain ∧ -9223372036854775808 ≤ q.num ∧ q.num ≤ 9223372036854775807 then .ok q.num
      else .error (.ofType path "int")
    | _ => .error (.ofType path "int")
  misread _ := false
  Fits d := d = .null ∨ ∃ q, d = .num q true
  fits {path old v d} h := by
    cases d with
    | null => exact .inl rfl
    | num q plain =>
      dsimp only at h
      split_ifs at h with hplain
      obtain rfl : plain = true := hplain.1
      exact .inr ⟨q, rfl⟩
    | _ => cases h

/-- A UUID in one of the forms that `uuid.Parse` reads. -/
def uuid (parse : String → Option UUID) : Decoder UUID where
  zero := UUID.nil
  run path old
    | .null => .ok old
    | .str t =>
      match parse t.toUnicode with
      | some id => .ok id
      | none => .error .text
    | _ => .error (.ofType path "uuid.UUID")
  misread
    | .str t => (parse t.toUnicode).isNone
    | _ => false
  Fits d := d = .null ∨ ∃ t id, d = .str t ∧ parse t.toUnicode = some id
  fits {path old v d} h := by
    cases d with
    | null => exact .inl rfl
    | str t =>
      dsimp only at h
      split at h
      · next id hid => exact .inr ⟨t, id, rfl, hid⟩
      · cases h
    | _ => cases h

/-- The entry of a map, in place of one of the same name. -/
def setEntry {ρ : Type} (k : String) (v : ρ) (entries : List (String × ρ)) : List (String × ρ) :=
  entries.filter (fun e => e.1 ≠ k) ++ [(k, v)]

/-- A `map[string]json.RawMessage`, whose entries have no order. -/
def rawMap : Decoder (Option (List (String × Doc))) where
  zero := none
  run path old
    | .null => .ok none
    | .obj members =>
      .ok (some (members.foldl (fun entries m => setEntry m.1.toUnicode m.2 entries) (old.getD [])))
    | _ => .error (.ofType path "map[string]json.RawMessage")
  misread _ := false
  Fits d := d = .null ∨ ∃ members, d = .obj members
  fits {path old v d} h := by
    cases d with
    | null => exact .inl rfl
    | obj members => exact .inr ⟨members, rfl⟩
    | _ => cases h

def pointer (t : Decoder τ) : Decoder (Option τ) where
  zero := none
  run path old
    | .null => .ok none
    | d => (t.run path (old.getD t.zero) d).map some
  misread
    | .null => false
    | d => t.misread d
  Fits d := d = .null ∨ t.Fits d
  fits {path old v d} h := by
    by_cases hd : d = .null
    · exact .inl hd
    · have hrun : (t.run path (old.getD t.zero) d).map some = .ok v := by
        cases d with
        | null => exact absurd rfl hd
        | _ => exact h
      obtain ⟨a, ha, -⟩ := JsonText.ok_of_map hrun
      exact .inr (t.fits ha)

/-- The elements are read one after the other, each into the old one at its place, if there is one
from an earlier array. -/
def runItems (t : Decoder τ) (path : List String) :
    List τ → List Doc → Except ValueError (List τ)
  | _, [] => .ok []
  | old, d :: rest => do
    let v ← t.run path (old.head?.getD t.zero) d
    let vs ← t.runItems path old.tail rest
    return v :: vs

theorem fits_runItems {t : Decoder τ} {path : List String} {items : List Doc} {old vs : List τ}
    (h : t.runItems path old items = .ok vs) : ∀ d ∈ items, t.Fits d := by
  induction items generalizing old vs with
  | nil => exact fun _ hd => (List.not_mem_nil hd).elim
  | cons d rest ih =>
    obtain ⟨v, hv, h⟩ := JsonText.ok_of_bind h
    obtain ⟨vs', hvs, -⟩ := JsonText.ok_of_bind h
    exact List.forall_mem_cons.mpr ⟨t.fits hv, ih hvs⟩

def slice (typeName : String) (t : Decoder τ) : Decoder (Option (List τ)) where
  zero := none
  run path old
    | .null => .ok none
    | .arr items => (t.runItems path (old.getD []) items).map some
    | _ => .error (.ofType path typeName)
  misread
    | .arr items => items.any t.misread
    | _ => false
  Fits d := d = .null ∨ ∃ items, d = .arr items ∧ ∀ item ∈ items, t.Fits item
  fits {path old v d} h := by
    cases d with
    | null => exact .inl rfl
    | arr items =>
      obtain ⟨vs, hvs, -⟩ := JsonText.ok_of_map h
      exact .inr ⟨items, rfl, fits_runItems hvs⟩
    | _ => cases h

end Decoder

/-! ## Structs -/

/-- The letters that fold to those of an ASCII name; two of them are not ASCII letters. -/
def foldChar (c : Char) : Char :=
  if c = '\u017F' then 's' else if c = '\u212A' then 'k' else c.toLower

def foldName (name : String) : List Char := name.toList.map foldChar

/-- A field of a struct `σ`, with its name in the document. -/
structure Field (σ : Type) where
  name : String
  run : List String → σ → Doc → Except ValueError σ
  misread : Doc → Bool
  Fits : Doc → Prop
  fits : ∀ {path : List String} {old v : σ} {d : Doc}, run path old d = .ok v → Fits d

namespace Decoder

variable {τ σ : Type}

def field (name : String) (t : Decoder τ) (get : σ → τ) (set : σ → τ → σ) : Field σ where
  name := name
  run path old d := (t.run (path ++ [name]) (get old) d).map (set old)
  misread := t.misread
  Fits := t.Fits
  fits h := by
    obtain ⟨v, hv, -⟩ := JsonText.ok_of_map h
    exact t.fits hv

/-- The field for a member; a field of exactly this name is preferred. -/
def fieldFor (fields : List (Field σ)) (name : String) : Option (Field σ) :=
  (fields.find? fun f => f.name = name).or (fields.find? fun f => foldName f.name = foldName name)

/-- The members go to their fields one after the other; unknown members are not allowed. -/
def runMembers (fields : List (Field σ)) (path : List String) :
    σ → List (Text × Doc) → Except ValueError σ
  | old, [] => .ok old
  | old, (k, d) :: rest =>
    match fieldFor fields k.toUnicode with
    | none => .error (.unknownField k.toUnicode)
    | some f => f.run path old d >>= fun v => runMembers fields path v rest

/-- The members have fields, and the fields can take them. -/
def MembersFit (fields : List (Field σ)) (members : List (Text × Doc)) : Prop :=
  ∀ m ∈ members, ∃ f, fieldFor fields m.1.toUnicode = some f ∧ f.Fits m.2

theorem fits_runMembers {fields : List (Field σ)} {path : List String}
    {members : List (Text × Doc)} {old v : σ} (h : runMembers fields path old members = .ok v) :
    MembersFit fields members := by
  induction members generalizing old with
  | nil => exact fun _ hm => (List.not_mem_nil hm).elim
  | cons m rest ih =>
    obtain ⟨k, d⟩ := m
    rw [runMembers] at h
    split at h
    · cases h
    · next f hf =>
      obtain ⟨v', hv', h⟩ := JsonText.ok_of_bind h
      exact List.forall_mem_cons.mpr ⟨⟨f, hf, f.fits hv'⟩, ih h⟩

def struct (typeName : String) (zero : σ) (fields : List (Field σ)) : Decoder σ where
  zero := zero
  run path old
    | .null => .ok old
    | .obj members => runMembers fields path old members
    | _ => .error (.ofType path typeName)
  misread
    | .obj members => members.any fun m =>
      (fieldFor fields m.1.toUnicode).any fun f => f.misread m.2
    | _ => false
  Fits d := d = .null ∨ ∃ members, d = .obj members ∧ MembersFit fields members
  fits {path old v d} h := by
    cases d with
    | null => exact .inl rfl
    | obj members => exact .inr ⟨members, rfl, fits_runMembers h⟩
    | _ => cases h

end Decoder

/-! ## Bodies -/

/-- Arrays and objects may be nested so deep. -/
def maxNestingDepth : ℕ := 10000

inductive DecodeError where
  /-- `io.EOF` -/
  | noValue
  /-- `io.ErrUnexpectedEOF` -/
  | cutOff
  | syntaxError (offset : ℕ)
  | value (e : ValueError)
  deriving DecidableEq, Repr

/-- The next value of the body, with the rest of it. -/
def nextValue (body : Text) : Except DecodeError (Doc × Text) :=
  if JsonText.skipBlanks body = [] then .error .noValue
  else
    match JsonText.parse (some maxNestingDepth) body with
    | .ok r => .ok r
    | .error [] => .error .cutOff
    | .error rest => .error (.syntaxError (body.utf8Length - rest.utf8Length + 1))

/-- What keeps a body from being read. -/
inductive BodyError where
  | contentType (mediaType : String)
  | decode (e : DecodeError)
  /-- there is something after the first value -/
  | trailing
  deriving DecidableEq, Repr

/-- `strings.TrimSpace` -/
def trimSpace (s : List Char) : List Char :=
  ((s.dropWhile isSpace).reverse.dropWhile isSpace).reverse

/-- The media type of a header, without its parameters. -/
def mediaType (contentType : String) : List Char :=
  trimSpace (contentType.toList.takeWhile (· ≠ ';'))

/-- A missing header is empty. -/
def acceptsType (contentType : String) : Bool :=
  contentType = "" || (mediaType contentType).map foldChar = "application/json".toList

/-- Read a body of exactly one value into a target. Of the values that it cannot take the first is
reported, but the error of an `UnmarshalText` method goes before the others. -/
def decodeJSON {τ : Type} (t : Decoder τ) (contentType : String) (body : Text) :
    Except BodyError τ :=
  if acceptsType contentType = false then
    .error (.contentType (String.ofList (mediaType contentType)))
  else
    match nextValue body with
    | .error e => .error (.decode e)
    | .ok (d, rest) =>
      match t.run [] t.zero d with
      | .error e => .error (.decode (.value (if t.misread d then .text else e)))
      | .ok v =>
        match nextValue rest with
        | .error .noValue => .ok v
        | _ => .error .trailing

/-- A body may be absent; the target is left as it is then. -/
def decodeOptionalJSON {τ : Type} (t : Decoder τ) (contentType : String) (body : Text) :
    Except BodyError τ :=
  match decodeJSON t contentType body with
  | .error (.decode .noValue) => .ok t.zero
  | r => r

def decodeError {δ : Type} : DecodeError → Error δ
  | .syntaxError offset => .badRequest "malformed JSON at byte offset %d" [.int offset]
  | .value (.type field type) => .badRequest "field %q must be of type %s" [.str field, .str type]
  | .noValue => .badRequest "request body is required" []
  | .value (.unknownField name) => .badRequest "json: unknown field %q" [.str name]
  | .cutOff | .value .text => .badRequest "request body is not valid JSON" []

def BodyError.app {δ : Type} : BodyError → Error δ
  | .contentType mediaType =>
    .badRequest "Content-Type must be application/json, got %q" [.str mediaType]
  | .decode e => decodeError e
  | .trailing => .badRequest "request body must contain exactly one JSON object" []

/-! ## Which bodies are read -/

/-- The body is this document, with white space around it. -/
def Holds (body : Text) (d : Doc) : Prop :=
  ∃ rest, JsonText.parse none body = .ok (d, rest) ∧ JsonText.skipBlanks rest = []

theorem Holds.unique {body : Text} {d d' : Doc} (h : Holds body d) (h' : Holds body d') :
    d = d' := by
  obtain ⟨rest, hparse, -⟩ := h
  obtain ⟨rest', hparse', -⟩ := h'
  exact (Prod.mk.inj (Except.ok.inj (hparse.symm.trans hparse'))).1

theorem nextValue_eq_noValue {body : Text} :
    nextValue body = .error .noValue ↔ JsonText.skipBlanks body = [] := by
  unfold nextValue
  split_ifs with hblank
  · exact iff_of_true rfl hblank
  · refine iff_of_false ?_ hblank
    split <;> nofun

theorem nextValue_eq_ok {body rest : Text} {d : Doc} :
    nextValue body = .ok (d, rest) ↔
      JsonText.parse none body = .ok (d, rest) ∧ d.depth ≤ maxNestingDepth := by
  have hroom : JsonText.parse (some maxNestingDepth) body = .ok (d, rest) ↔
      JsonText.parse none body = .ok (d, rest) ∧ d.depth ≤ maxNestingDepth := by
    rw [JsonText.parse_room, JsonText.Room]
    refine and_congr_right fun _ => ⟨fun h => h _ rfl, fun h r hr => ?_⟩
    exact Option.mem_some_iff.mp hr ▸ h
  rw [← hroom, nextValue]
  split_ifs with hblank
  · simp [JsonText.parse_blank hblank]
  · split
    · next hr => rw [hr, Except.ok.injEq, Except.ok.injEq]
    · next hr => simp [hr]
    · next hr => simp [hr]

/-- A body is read when it is one document that the target can take. -/
theorem decodeJSON_eq_ok {τ : Type} {t : Decoder τ} {contentType : String} {body : Text} {v : τ} :
    decodeJSON t contentType body = .ok v ↔ acceptsType contentType = true ∧
      ∃ d, Holds body d ∧ d.depth ≤ maxNestingDepth ∧ t.run [] t.zero d = .ok v := by
  unfold decodeJSON
  split_ifs with htype
  · rw [htype]
    exact iff_of_false nofun fun h => nomatch h.1
  · rw [Bool.not_eq_false] at htype
    simp only [htype, true_and]
    cases hnext : nextValue body with
    | error e =>
      refine iff_of_false nofun ?_
      rintro ⟨d, ⟨rest, hparse, -⟩, hdepth, -⟩
      rw [nextValue_eq_ok.mpr ⟨hparse, hdepth⟩] at hnext
      cases hnext
    | ok r =>
      obtain ⟨d, rest⟩ := r
      dsimp only
      obtain ⟨hparse, hdepth⟩ := nextValue_eq_ok.mp hnext
      have hd : ∀ d', Holds body d' → d' = d := by
        rintro d' ⟨rest', hparse', -⟩
        exact (Prod.mk.inj (Except.ok.inj (hparse'.symm.trans hparse))).1
      cases hrun : t.run [] t.zero d with
      | error e =>
        refine iff_of_false nofun ?_
        rintro ⟨d', hholds, -, hv⟩
        rw [hd d' hholds, hrun] at hv
        cases hv
      | ok w =>
        dsimp only
        split
        · next hblank =>
          rw [nextValue_eq_noValue] at hblank
          constructor
          · rintro ⟨⟩
            exact ⟨d, ⟨rest, hparse, hblank⟩, hdepth, hrun⟩
          · rintro ⟨d', hholds, -, hv⟩
            rw [hd d' hholds, hrun] at hv
            rw [Except.ok.inj hv]
        · next hblank =>
          refine iff_of_false nofun ?_
          rintro ⟨d', ⟨rest', hparse', hrest⟩, -⟩
          rw [hparse] at hparse'
          obtain ⟨-, rfl⟩ := Prod.mk.inj (Except.ok.inj hparse')
          exact hblank (nextValue_eq_noValue.mpr hrest)

end Interbellum.Http
