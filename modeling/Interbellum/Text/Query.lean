import Mathlib.Data.List.Basic

/-!
# Query strings

A parameter of a URL travels as ASCII text: of each byte of its UTF-8 encoding, one outside of a
small alphabet is written as `%` and two hexadecimal digits. The receiver cuts the query at `&`
and each part at the first `=`, and only then replaces the escapes. A part with a `;` or with a
malformed escape is passed over.

* `unescape_encode`: escapes are undone.
* `get_pair`: the value of the only parameter is what was encoded.
-/

namespace Interbellum.Query

abbrev Bytes := List UInt8

def ascii (c : Char) : UInt8 := c.toNat.toUInt8

/-- Letters, digits and nine marks. -/
def unreserved (b : UInt8) : Bool :=
  (ascii 'a' ≤ b && b ≤ ascii 'z') || (ascii 'A' ≤ b && b ≤ ascii 'Z') ||
    (ascii '0' ≤ b && b ≤ ascii '9') || ("-_.!~*'()".toList.map ascii).contains b

def hexDigit (n : ℕ) : UInt8 :=
  if n < 10 then ascii '0' + n.toUInt8 else ascii 'A' + (n - 10).toUInt8

def encodeByte (b : UInt8) : Bytes :=
  if unreserved b then [b]
  else [ascii '%', hexDigit (b.toNat / 16), hexDigit (b.toNat % 16)]

def encode (bytes : Bytes) : Bytes := bytes.flatMap encodeByte

def utf8 (s : String) : Bytes := s.toUTF8.data.toList

/-- `encodeURIComponent` of a string without lone surrogates. -/
def encodeURIComponent (s : String) : Bytes := encode (utf8 s)

/-! ## Reading -/

def hexValue (b : UInt8) : Option ℕ :=
  if ascii '0' ≤ b && b ≤ ascii '9' then some (b - ascii '0').toNat
  else if ascii 'a' ≤ b && b ≤ ascii 'f' then some ((b - ascii 'a').toNat + 10)
  else if ascii 'A' ≤ b && b ≤ ascii 'F' then some ((b - ascii 'A').toNat + 10)
  else none

def unescape : Bytes → Option Bytes
  | [] => some []
  | b :: rest =>
    if b = ascii '%' then
      match rest with
      | high :: low :: rest =>
        match hexValue high, hexValue low, unescape rest with
        | some high, some low, some rest => some ((16 * high + low).toUInt8 :: rest)
        | _, _, _ => none
      | _ => none
    else (unescape rest).map ((if b = ascii '+' then ascii ' ' else b) :: ·)

/-- Before and after the first separator. -/
def cut (separator : UInt8) (bytes : Bytes) : Bytes × Bytes :=
  ((bytes.takeWhile (· ≠ separator)), (bytes.dropWhile (· ≠ separator)).drop 1)

/-- A name and a value, of a part that has them. -/
def parsePart (part : Bytes) : Option (Bytes × Bytes) :=
  if ascii ';' ∈ part ∨ part = [] then none
  else
    match unescape (cut (ascii '=') part).1, unescape (cut (ascii '=') part).2 with
    | some name, some value => some (name, value)
    | _, _ => none

def parse (query : Bytes) : List (Bytes × Bytes) :=
  (query.splitOn (ascii '&')).filterMap parsePart

/-- The first value of the parameter, empty where there is none. -/
def get (name : String) (query : Bytes) : Bytes := ((parse query).lookup (utf8 name)).getD []

/-! ## Round trip -/

theorem hexValue_hexDigit {n : ℕ} (h : n < 16) : hexValue (hexDigit n) = some n := by
  have hall : ∀ n < 16, hexValue (hexDigit n) = some n := by decide
  exact hall n h

theorem unescape_plain {b : UInt8} (h : b ≠ ascii '%') (rest : Bytes) :
    unescape (b :: rest) = (unescape rest).map ((if b = ascii '+' then ascii ' ' else b) :: ·) := by
  rw [unescape.eq_def]
  exact if_neg h

theorem unescape_byte (b : UInt8) (rest : Bytes) :
    unescape (encodeByte b ++ rest) = (unescape rest).map (b :: ·) := by
  have hlt : b.toNat < 256 := b.toNat_lt
  by_cases hb : unreserved b
  · have hmarks : unreserved (ascii '%') = false ∧ unreserved (ascii '+') = false := by decide
    have hpercent : b ≠ ascii '%' := fun he => by simp [he, hmarks] at hb
    have hplus : b ≠ ascii '+' := fun he => by simp [he, hmarks] at hb
    rw [encodeByte, if_pos hb, List.singleton_append, unescape_plain hpercent, if_neg hplus]
  · have hvalue : (16 * (b.toNat / 16) + b.toNat % 16).toUInt8 = b := by
      rw [Nat.div_add_mod]
      exact UInt8.ofNat_toNat
    rw [encodeByte, if_neg hb]
    simp only [List.cons_append, List.nil_append, unescape, if_pos,
      hexValue_hexDigit (show b.toNat / 16 < 16 by omega),
      hexValue_hexDigit (show b.toNat % 16 < 16 by omega)]
    cases unescape rest with
    | none => rfl
    | some rest => exact congrArg (fun b => some (b :: rest)) hvalue

theorem unescape_encode (bytes : Bytes) : unescape (encode bytes) = some bytes := by
  induction bytes with
  | nil => rfl
  | cons b rest ih =>
    rw [encode, List.flatMap_cons, unescape_byte]
    rw [encode] at ih
    rw [ih, Option.map_some]

/-- A separator is never left in an encoded text. -/
theorem not_mem_encode {separator : UInt8} (hreserved : unreserved separator = false)
    (hpercent : separator ≠ ascii '%') (hdigit : ∀ n < 16, hexDigit n ≠ separator)
    (bytes : Bytes) : separator ∉ encode bytes := by
  rw [encode, List.mem_flatMap]
  rintro ⟨b, -, hb⟩
  have hlt : b.toNat < 256 := b.toNat_lt
  rw [encodeByte] at hb
  split_ifs at hb with hunreserved
  · rw [List.mem_singleton.mp hb, hunreserved] at hreserved
    cases hreserved
  · simp only [List.mem_cons, List.not_mem_nil, or_false] at hb
    rcases hb with hb | hb | hb
    · exact hpercent hb
    · exact hdigit _ (by omega) hb.symm
    · exact hdigit _ (by omega) hb.symm

theorem cut_append {separator : UInt8} {bytes : Bytes} (h : separator ∉ bytes) (rest : Bytes) :
    cut separator (bytes ++ separator :: rest) = (bytes, rest) := by
  have hall : ∀ b ∈ bytes, (decide (b ≠ separator)) = true := by
    intro b hb
    exact decide_eq_true fun he => h (he ▸ hb)
  rw [cut, List.takeWhile_append_of_pos hall, List.dropWhile_append_of_pos hall]
  simp

theorem get_pair (name : String) (bytes : Bytes) :
    get name (encode (utf8 name) ++ ascii '=' :: encode bytes) = bytes := by
  have hamp : ∀ bytes : Bytes, ascii '&' ∉ encode bytes :=
    not_mem_encode (by decide) (by decide) (by decide)
  have hsemicolon : ∀ bytes : Bytes, ascii ';' ∉ encode bytes :=
    not_mem_encode (by decide) (by decide) (by decide)
  have hequals : ∀ bytes : Bytes, ascii '=' ∉ encode bytes :=
    not_mem_encode (by decide) (by decide) (by decide)
  have hparts : (encode (utf8 name) ++ ascii '=' :: encode bytes).splitOn (ascii '&') =
      [encode (utf8 name) ++ ascii '=' :: encode bytes] := by
    refine List.splitOn_eq_singleton ?_
    rw [List.mem_append, List.mem_cons]
    rintro (h | h | h)
    · exact hamp _ h
    · exact absurd h (by decide)
    · exact hamp _ h
  have hpart : parsePart (encode (utf8 name) ++ ascii '=' :: encode bytes) =
      some (utf8 name, bytes) := by
    rw [parsePart, if_neg, cut_append (hequals _), unescape_encode, unescape_encode]
    rw [List.mem_append, List.mem_cons]
    rintro ((h | h | h) | h)
    · exact hsemicolon _ h
    · exact absurd h (by decide)
    · exact hsemicolon _ h
    · simp at h
  rw [get, parse, hparts, List.filterMap_cons_some hpart, List.filterMap_nil,
    List.lookup_cons_self, Option.getD_some]

theorem fromUTF8_utf8 (s : String) : String.fromUTF8? ⟨(utf8 s).toArray⟩ = some s := by
  have hbytes : ByteArray.mk (utf8 s).toArray = s.toByteArray := rfl
  simp [hbytes, String.fromUTF8?, String.isValidUTF8, String.fromUTF8]

end Interbellum.Query
