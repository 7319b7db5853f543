import Mathlib.Algebra.GroupWithZero.Nat
import Mathlib.Data.Char
import Mathlib.Data.List.Basic

/-!
# Texts of UTF-16 code units

A text is a list of code units, and nothing keeps a surrogate from standing in it without the
other half of its pair. `Text.toUnicode` is what a decoder reads that replaces each such
surrogate by U+FFFD; `Text.wellFormed` says that there is none.

* `Text.zero_mem_chars`: U+0000 is read where the text has the code unit 0.
-/

namespace Interbellum.Utf16

abbrev Text := List UInt16

/-- The code unit of an ASCII character. -/
def unit (c : Char) : UInt16 := c.toNat.toUInt16

def isHigh (u : UInt16) : Bool := 0xD800 ≤ u.toNat && u.toNat < 0xDC00

def isLow (u : UInt16) : Bool := 0xDC00 ≤ u.toNat && u.toNat < 0xE000

/-- The code point of a pair. -/
def pairChar (high low : UInt16) : Char :=
  Char.ofNat (0x10000 + (high.toNat - 0xD800) * 0x400 + (low.toNat - 0xDC00))

/-- The code point of a unit that is in no pair. -/
def loneChar (u : UInt16) : Char :=
  if isHigh u || isLow u then '\uFFFD' else Char.ofNat u.toNat

namespace Text

def chars : Text → List Char
  | [] => []
  | [u] => [loneChar u]
  | u :: w :: rest =>
    if isHigh u && isLow w then pairChar u w :: chars rest else loneChar u :: chars (w :: rest)

def toUnicode (t : Text) : String := String.ofList t.chars

/-- The length of the text in bytes. -/
def utf8Length (t : Text) : ℕ := (t.chars.map Char.utf8Size).sum

/-- Every surrogate is in a pair. -/
def wellFormed : Text → Bool
  | [] => true
  | [u] => !isHigh u && !isLow u
  | u :: w :: rest =>
    if isHigh u && isLow w then wellFormed rest
    else !isHigh u && !isLow u && wellFormed (w :: rest)

def charUnits (c : Char) : Text :=
  if c.toNat < 0x10000 then [c.toNat.toUInt16]
  else
    let n := c.toNat - 0x10000
    [(0xD800 + n / 0x400).toUInt16, (0xDC00 + n % 0x400).toUInt16]

/-- The text of a Unicode string. -/
def ofString (s : String) : Text := s.toList.flatMap charUnits

end Text

/-! ## What is read of a text -/

theorem toNat_ofNat {n : Nat} (h : n.isValidChar) : (Char.ofNat n).toNat = n := by
  rw [Char.ofNat, dif_pos h]
  rfl

theorem ofNat_ne_zero {n : Nat} (h : n.isValidChar) (hn : n ≠ 0) : Char.ofNat n ≠ '\u0000' := by
  intro heq
  apply hn
  rw [← toNat_ofNat h, heq]
  rfl

theorem pairChar_ne_zero {high low : UInt16} (hhigh : isHigh high = true)
    (hlow : isLow low = true) : pairChar high low ≠ '\u0000' := by
  simp only [isHigh, isLow, Bool.and_eq_true, decide_eq_true_eq] at hhigh hlow
  exact ofNat_ne_zero (.inr ⟨by omega, by omega⟩) (by omega)

theorem loneChar_eq_zero {u : UInt16} : loneChar u = '\u0000' ↔ u = 0 := by
  constructor
  · intro h
    rw [loneChar] at h
    split at h
    · cases h
    · next hu =>
      by_contra hne
      have hsize : u.toNat < 0x10000 := u.toNat_lt
      have hnat : u.toNat ≠ 0 := fun hzero => hne (UInt16.toNat_inj.mp hzero)
      simp only [isHigh, isLow, Bool.or_eq_true, Bool.and_eq_true, decide_eq_true_eq] at hu
      exact ofNat_ne_zero (by unfold Nat.isValidChar; omega) hnat h
  · rintro rfl
    rfl

namespace Text

/-- U+0000 is read exactly where it stands. -/
theorem zero_mem_chars (t : Text) : '\u0000' ∈ t.chars ↔ 0 ∈ t := by
  fun_induction chars t with
  | case1 => simp
  | case2 u => rw [List.mem_singleton, List.mem_singleton, eq_comm, loneChar_eq_zero, eq_comm]
  | case3 u w rest hpair ih =>
    obtain ⟨hhigh, hlow⟩ := Bool.and_eq_true_iff.mp hpair
    have hu : (0 : UInt16) ≠ u := by rintro rfl; exact absurd hhigh (by decide)
    have hw : (0 : UInt16) ≠ w := by rintro rfl; exact absurd hlow (by decide)
    rw [List.mem_cons, or_iff_right (pairChar_ne_zero hhigh hlow).symm, ih, List.mem_cons,
      List.mem_cons, or_iff_right hu, or_iff_right hw]
  | case4 u w rest hpair ih =>
    rw [List.mem_cons, ih, eq_comm, loneChar_eq_zero, eq_comm, ← List.mem_cons]

theorem chars_eq_nil {t : Text} : t.chars = [] ↔ t = [] := by
  fun_cases chars t <;> simp

theorem toUnicode_eq_empty {t : Text} : t.toUnicode = "" ↔ t = [] := by
  rw [toUnicode, String.ofList_eq_empty_iff, chars_eq_nil]

theorem chars_cons_of_not_high {u : UInt16} (hu : isHigh u = false) (rest : Text) :
    chars (u :: rest) = loneChar u :: chars rest := by
  cases rest with
  | nil => rfl
  | cons w rest => rw [chars, hu, Bool.false_and, if_neg Bool.false_ne_true]

/-- Without surrogates every code unit is a character. -/
theorem chars_eq_map {t : Text} (h : ∀ u ∈ t, isHigh u = false) : t.chars = t.map loneChar := by
  induction t with
  | nil => rfl
  | cons u rest ih =>
    obtain ⟨hu, hrest⟩ := List.forall_mem_cons.mp h
    rw [chars_cons_of_not_high hu, ih hrest, List.map_cons]

theorem chars_charUnits (c : Char) (rest : Text) : chars (charUnits c ++ rest) = c :: chars rest := by
  have hvalid : c.toNat.isValidChar := c.valid
  unfold charUnits
  split_ifs with hsmall
  · have hnat : c.toNat.toUInt16.toNat = c.toNat := by
      rw [Nat.toUInt16_eq, UInt16.toNat_ofNat']
      exact Nat.mod_eq_of_lt hsmall
    have hhigh : isHigh c.toNat.toUInt16 = false := by
      rw [isHigh, hnat]
      rcases hvalid with h | h <;> simp <;> omega
    have hlow : isLow c.toNat.toUInt16 = false := by
      rw [isLow, hnat]
      rcases hvalid with h | h <;> simp <;> omega
    rw [List.singleton_append, chars_cons_of_not_high hhigh, loneChar, hhigh, hlow, hnat]
    simp
  · have hrange : c.toNat < 0x110000 := by
      rcases hvalid with h | h <;> omega
    have hhigh : (0xD800 + (c.toNat - 0x10000) / 0x400).toUInt16.toNat =
        0xD800 + (c.toNat - 0x10000) / 0x400 := by
      rw [Nat.toUInt16_eq, UInt16.toNat_ofNat']
      exact Nat.mod_eq_of_lt (by omega)
    have hlow : (0xDC00 + (c.toNat - 0x10000) % 0x400).toUInt16.toNat =
        0xDC00 + (c.toNat - 0x10000) % 0x400 := by
      rw [Nat.toUInt16_eq, UInt16.toNat_ofNat']
      exact Nat.mod_eq_of_lt (by omega)
    have hpair : (isHigh (0xD800 + (c.toNat - 0x10000) / 0x400).toUInt16 &&
        isLow (0xDC00 + (c.toNat - 0x10000) % 0x400).toUInt16) = true := by
      simp only [isHigh, isLow, hhigh, hlow, Bool.and_eq_true, decide_eq_true_eq]
      omega
    show chars (_ :: _ :: rest) = _
    rw [chars, if_pos hpair, pairChar, hhigh, hlow]
    have hpoint : 0x10000 + (0xD800 + (c.toNat - 0x10000) / 0x400 - 0xD800) * 0x400 +
        (0xDC00 + (c.toNat - 0x10000) % 0x400 - 0xDC00) = c.toNat := by omega
    rw [hpoint, Char.ofNat_toNat]

/-- A Unicode string is read as it is. -/
theorem toUnicode_ofString (s : String) : (ofString s).toUnicode = s := by
  have hchars : ∀ cs : List Char, chars (cs.flatMap charUnits) = cs := by
    intro cs
    induction cs with
    | nil => rfl
    | cons c rest ih => rw [List.flatMap_cons, chars_charUnits, ih]
  rw [toUnicode, ofString, hchars, String.ofList_toList]

end Text

end Interbellum.Utf16
