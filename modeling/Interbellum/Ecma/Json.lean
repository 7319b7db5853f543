import Mathlib.Data.List.Sort
import Interbellum.Ecma.Number
import Interbellum.Ecma.Text
import Interbellum.Text.Json

/-!
# `parseInt`, `String`, `JSON.parse` and `JSON.stringify`

The text that `JSON.stringify` writes is given by the document it stands for.

* `leadingInteger_integerText`: an integer is read back from its digits.
-/

namespace Interbellum.Ecma

open Utf16 (Text unit)
open JsonText (Doc isDigit digitsValue)

/-- The integer that a string starts with, after white space and a sign. -/
def leadingInteger (t : Text) : Option ℤ :=
  let negative := t.trimStart.head? = some (unit '-')
  let signed := negative ∨ t.trimStart.head? = some (unit '+')
  let digits := (if signed then t.trimStart.tail else t.trimStart).takeWhile isDigit
  if digits = [] then none
  else if negative then some (-digitsValue digits)
  else some (digitsValue digits)

/-- `Number.parseInt(t, 10)`, where `none` is NaN. -/
def parseInt (t : Text) : Option Number := (leadingInteger t).map fun n : ℤ => .ofRat n

/-! ## Printing numbers -/

def natText (n : ℕ) : Text := (Nat.toDigits 10 n).map unit

def integerText (n : ℤ) : Text :=
  if n < 0 then unit '-' :: natText n.natAbs else natText n.natAbs

/-- The digits of a positive number, from the first one, which counts `10 ^ e`, to the last one
that is not zero. -/
def significand (q : Rat) (e : ℤ) : Text :=
  match ((List.range 1200).map fun k : ℕ => q * 10 ^ ((k : ℤ) - e)).find? (·.den = 1) with
  | some s => natText s.num.natAbs
  | none => []

/-- A positive number that is no integer of at most 21 digits. -/
def fractionText (q : Rat) : Text :=
  let e := Int.log 10 q
  let digits := significand q e
  let point := (e + 1).toNat
  if 0 ≤ e ∧ e < 21 then digits.take point ++ unit '.' :: digits.drop point
  else if -6 ≤ e ∧ e < 0 then
    unit '0' :: unit '.' :: List.replicate (-e - 1).toNat (unit '0') ++ digits
  else
    digits.take 1 ++ (if digits.length ≤ 1 then [] else unit '.' :: digits.drop 1) ++
      unit 'e' :: (if 0 ≤ e then unit '+' else unit '-') :: natText e.natAbs

/-- `String(x)`, where the sign of an infinite number is left out. -/
def Number.text : Number → Text
  | .infinite => .ofString "Infinity"
  | .finite x =>
    if x.shown.den = 1 ∧ |x.shown| < 10 ^ 21 then integerText x.shown.num
    else if x.shown < 0 then unit '-' :: fractionText |x.shown|
    else fractionText x.shown

theorem unit_toNat {c : Char} (h : c.isDigit = true) : (unit c).toNat = c.toNat := by
  rw [Char.isDigit_iff_toNat] at h
  have hle : c.toNat ≤ 57 := h.2
  exact Nat.mod_eq_of_lt (by omega)

theorem isDigit_unit {c : Char} (h : c.isDigit = true) : isDigit (unit c) = true := by
  have hnat := unit_toNat h
  rw [Char.isDigit_iff_toNat] at h
  rw [isDigit, Bool.and_eq_true, decide_eq_true_eq, decide_eq_true_eq, UInt16.le_iff_toNat_le,
    UInt16.le_iff_toNat_le, hnat]
  exact h

theorem isDigit_of_mem_natText {n : ℕ} {u : UInt16} (h : u ∈ natText n) : isDigit u = true := by
  obtain ⟨c, hc, rfl⟩ := List.mem_map.mp h
  exact isDigit_unit (Nat.isDigit_of_mem_toDigits (by norm_num) le_rfl hc)

theorem natText_ne_nil (n : ℕ) : natText n ≠ [] := by
  rw [natText, Ne, List.map_eq_nil_iff]
  exact Nat.toDigits_ne_nil

theorem digitsValue_natText (n : ℕ) : digitsValue (natText n) = n := by
  have hfold : ∀ (digits : List Char) (k : ℕ), (∀ c ∈ digits, c.isDigit = true) →
      (digits.map unit).foldl (fun n u => 10 * n + (u.toNat - 48)) k =
        Nat.ofDigitChars 10 digits k := by
    intro digits
    induction digits with
    | nil => exact fun _ _ => rfl
    | cons c rest ih =>
      intro k hdigits
      obtain ⟨hc, hrest⟩ := List.forall_mem_cons.mp hdigits
      rw [List.map_cons, List.foldl_cons, ih _ hrest, unit_toNat hc]
      rfl
  rw [digitsValue, natText, hfold]
  · exact Nat.ofDigitChars_toDigits (by norm_num) le_rfl
  · exact fun c hc => Nat.isDigit_of_mem_toDigits (by norm_num) le_rfl hc

theorem takeWhile_natText (n : ℕ) : (natText n).takeWhile isDigit = natText n :=
  List.takeWhile_eq_self_iff.mpr fun _ hu => isDigit_of_mem_natText hu

theorem not_isSpace_of_isDigit {u : UInt16} (h : isDigit u = true) : Utf16.isSpace u = false := by
  cases hs : Utf16.isSpace u with
  | false => rfl
  | true =>
    simp only [Utf16.isSpace, List.mem_cons, List.not_mem_nil, or_false, decide_eq_true_eq] at hs
    rcases hs with rfl | rfl | rfl | rfl | rfl | rfl | rfl | rfl | rfl | rfl | rfl | rfl | rfl |
      rfl | rfl | rfl | rfl | rfl | rfl | rfl | rfl | rfl | rfl | rfl | rfl <;> cases h

theorem leadingInteger_natText (n : ℕ) : leadingInteger (natText n) = some (n : ℤ) := by
  obtain ⟨u, rest, hn⟩ := List.exists_cons_of_ne_nil (natText_ne_nil n)
  have hu : isDigit u = true := isDigit_of_mem_natText (hn ▸ List.mem_cons_self)
  have htrim : (natText n).trimStart = natText n := by
    rw [hn, Text.trimStart, List.dropWhile_cons_of_neg]
    rw [not_isSpace_of_isDigit hu]
    exact Bool.false_ne_true
  have hsign : ∀ w, isDigit w = false → (natText n).head? ≠ some w := by
    intro w hw hhead
    rw [hn, List.head?_cons, Option.some.injEq] at hhead
    rw [← hhead, hu] at hw
    cases hw
  unfold leadingInteger
  simp only [htrim, hsign (unit '-') rfl, hsign (unit '+') rfl, or_self, if_false,
    takeWhile_natText, if_neg (natText_ne_nil n), digitsValue_natText]

theorem leadingInteger_minus (n : ℕ) :
    leadingInteger (unit '-' :: natText n) = some (-n : ℤ) := by
  have htrim : (Text.trimStart (unit '-' :: natText n)) = unit '-' :: natText n := rfl
  unfold leadingInteger
  simp only [htrim, List.head?_cons, true_or, if_true, List.tail_cons, takeWhile_natText,
    if_neg (natText_ne_nil n), digitsValue_natText]

/-- An integer is read back from its digits. -/
theorem leadingInteger_integerText (n : ℤ) : leadingInteger (integerText n) = some n := by
  unfold integerText
  split_ifs with hneg
  · rw [leadingInteger_minus]
    exact congrArg some (by omega)
  · rw [leadingInteger_natText]
    exact congrArg some (by omega)

/-! ## Values -/

inductive Value where
  | null
  | bool (b : Bool)
  | num (n : Number)
  | str (t : Text)
  | arr (items : List Value)
  /-- the properties in the order of `Object.keys` -/
  | obj (members : List (Text × Value))

/-- A property that is set again keeps its place. -/
def setMember (k : Text) (v : Value) : List (Text × Value) → List (Text × Value)
  | [] => [(k, v)]
  | (l, w) :: rest => if l = k then (k, v) :: rest else (l, w) :: setMember k v rest

/-- Whether a name is an array index: an integer below 2³² - 1 without leading zeros. -/
def isIndex (k : Text) : Bool :=
  k != [] && k.all isDigit && (k.length == 1 || k.head? != some (unit '0')) &&
    digitsValue k < 4294967295

/-- Array indices come first, in ascending order, then the other names as they were set. -/
def ownKeys (members : List (Text × Value)) : List (Text × Value) :=
  (members.filter fun m => isIndex m.1).insertionSort
    (fun a b => digitsValue a.1 ≤ digitsValue b.1) ++ members.filter fun m => !isIndex m.1

mutual

/-- The value that is made of a document that was read. -/
def ofDoc : Doc → Value
  | .null => .null
  | .bool b => .bool b
  | .num q _ => .num (.ofRat q)
  | .str t => .str t
  | .arr items => .arr (ofItems items)
  | .obj members => .obj (ownKeys (ofMembers [] members))

def ofItems : List Doc → List Value
  | [] => []
  | d :: rest => ofDoc d :: ofItems rest

def ofMembers (set : List (Text × Value)) : List (Text × Doc) → List (Text × Value)
  | [] => set
  | (k, d) :: rest => ofMembers (setMember k (ofDoc d) set) rest

end

/-- `JSON.parse`, where `none` is a syntax error. -/
def parseJson (t : Text) : Option Value :=
  match JsonText.parse none t with
  | .ok (d, rest) => if JsonText.skipBlanks rest = [] then some (ofDoc d) else none
  | .error _ => none

/-- An integer of at most 21 digits is printed without an exponent. -/
def Number.toDoc : Number → Doc
  | .finite x => .num x.shown (x.shown.den = 1 && |x.shown| < 10 ^ 21)
  | .infinite => .null

mutual

/-- The document that `JSON.stringify` writes. -/
def Value.toDoc : Value → Doc
  | .null => .null
  | .bool b => .bool b
  | .num n => n.toDoc
  | .str t => .str t
  | .arr items => .arr (itemDocs items)
  | .obj members => .obj (memberDocs members)

def itemDocs : List Value → List Doc
  | [] => []
  | v :: rest => v.toDoc :: itemDocs rest

def memberDocs : List (Text × Value) → List (Text × Doc)
  | [] => []
  | (k, v) :: rest => (k, v.toDoc) :: memberDocs rest

end

end Interbellum.Ecma
