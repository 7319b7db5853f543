import Mathlib.Data.List.DropRight
import Interbellum.Text.Utf16

/-!
# Strings of an ECMAScript program

* `Text.mem_trim`: trimming keeps every code unit that is no white space.
-/

namespace Interbellum.Utf16

/-- White space and line terminators; all of them are single code units. -/
def isSpace (u : UInt16) : Bool :=
  u ∈ [0x0009, 0x000A, 0x000B, 0x000C, 0x000D, 0x0020, 0x00A0, 0x1680, 0x2000, 0x2001, 0x2002,
    0x2003, 0x2004, 0x2005, 0x2006, 0x2007, 0x2008, 0x2009, 0x200A, 0x2028, 0x2029, 0x202F, 0x205F,
    0x3000, 0xFEFF]

theorem not_isSpace_zero : isSpace 0 = false := by decide

namespace Text

def trimStart (t : Text) : Text := t.dropWhile isSpace

def trim (t : Text) : Text := t.trimStart.rdropWhile isSpace

/-- Trimming keeps every code unit that is no white space. -/
theorem mem_trim {t : Text} {u : UInt16} (hu : isSpace u = false) : u ∈ t.trim ↔ u ∈ t := by
  have hdrop : ∀ l : List UInt16, u ∈ l.dropWhile isSpace ↔ u ∈ l := by
    intro l
    induction l with
    | nil => rfl
    | cons w rest ih =>
      rw [List.dropWhile_cons]
      split
      · next hw =>
        have hne : u ≠ w := by
          rintro rfl
          rw [hu] at hw
          cases hw
        rw [ih, List.mem_cons, or_iff_right hne]
      · rfl
  rw [trim, trimStart, List.rdropWhile, List.mem_reverse, hdrop, List.mem_reverse, hdrop]

end Text

end Interbellum.Utf16
