import Mathlib.Data.List.Forall2
import Interbellum.Ecma.Text

/-!
# Unicode strings in an ECMAScript program

The text of a Unicode string has no lone surrogates, and trimming it leaves the text of one. Where
a string is made of any other text, lone surrogates are replaced, which touches no white space.

* `Text.ofString_trimmed`: a string is trimmed as its text is.
* `Text.trimmed_toUnicode`: the string of a trimmed text is trimmed.
-/

namespace Interbellum.Utf16

theorem not_surrogate_of_isSpace {u : UInt16} (h : isSpace u = true) :
    isHigh u = false ∧ isLow u = false := by
  simp only [isSpace, List.mem_cons, List.not_mem_nil, or_false, decide_eq_true_eq] at h
  rcases h with rfl | rfl | rfl | rfl | rfl | rfl | rfl | rfl | rfl | rfl | rfl | rfl | rfl | rfl |
    rfl | rfl | rfl | rfl | rfl | rfl | rfl | rfl | rfl | rfl | rfl <;> decide

theorem isSpace_of_high {u : UInt16} (h : isHigh u = true) : isSpace u = false := by
  by_contra hspace
  rw [Bool.not_eq_false] at hspace
  rw [(not_surrogate_of_isSpace hspace).1] at h
  cases h

theorem isSpace_of_low {u : UInt16} (h : isLow u = true) : isSpace u = false := by
  by_contra hspace
  rw [Bool.not_eq_false] at hspace
  rw [(not_surrogate_of_isSpace hspace).2] at h
  cases h

namespace Text

/-! ## The units of a string -/

/-- A character is one unit that is no surrogate, or a pair. -/
theorem charUnits_cases (c : Char) :
    (c.toNat < 0x10000 ∧ ∃ u, charUnits c = [u] ∧ isHigh u = false ∧ isLow u = false) ∨
      ∃ high low, charUnits c = [high, low] ∧ isHigh high = true ∧ isLow low = true := by
  have hvalid : c.toNat.isValidChar := c.valid
  unfold charUnits
  split_ifs with hsmall
  · refine .inl ⟨hsmall, _, rfl, ?_⟩
    have hnat : c.toNat.toUInt16.toNat = c.toNat := by
      rw [Nat.toUInt16_eq, UInt16.toNat_ofNat']
      exact Nat.mod_eq_of_lt hsmall
    rw [isHigh, isLow, hnat]
    rcases hvalid with h | h <;> constructor <;> simp <;> omega
  · refine .inr ⟨_, _, rfl, ?_⟩
    have hrange : c.toNat < 0x110000 := by
      rcases hvalid with h | h <;> omega
    have hhigh : (0xD800 + (c.toNat - 0x10000) / 0x400).toUInt16.toNat =
        0xD800 + (c.toNat - 0x10000) / 0x400 := by
      rw [Nat.toUInt16_eq, UInt16.toNat_ofNat']
      exact Nat.mod_eq_of_lt (by omega)
    have hlow : (0xDC00 + (c.toNat - 0x10000) % 0x400).toUInt16.toNat =
        0xDC00 + (c.toNat - 0x10000) % 0x400 := by
      rw [Nat.toUInt16_eq, UInt16.toNat_ofNat']
      exact Nat.mod_eq_of_lt (by omega)
    simp only [isHigh, isLow, hhigh, hlow, Bool.and_eq_true, decide_eq_true_eq]
    omega

/-- The text is that of a Unicode string. -/
def IsUnicode (t : Text) : Prop := ofString t.toUnicode = t

theorem isUnicode_ofString (s : String) : (ofString s).IsUnicode :=
  congrArg ofString (toUnicode_ofString s)

theorem wellFormed_append (c : Char) (rest : Text) :
    wellFormed (charUnits c ++ rest) = wellFormed rest := by
  rcases charUnits_cases c with ⟨-, u, hunits, hhigh, hlow⟩ | ⟨high, low, hunits, hhigh, hlow⟩
  · rw [hunits, List.singleton_append]
    cases rest with
    | nil => simp [wellFormed, hhigh, hlow]
    | cons w rest => simp [wellFormed, hhigh, hlow]
  · rw [hunits, List.cons_append, List.singleton_append]
    simp [wellFormed, hhigh, hlow]

theorem IsUnicode.wellFormed {t : Text} (h : t.IsUnicode) : t.wellFormed = true := by
  have hchars : ∀ cs : List Char, Text.wellFormed (cs.flatMap charUnits) = true := by
    intro cs
    induction cs with
    | nil => rfl
    | cons c rest ih => rw [List.flatMap_cons, wellFormed_append, ih]
  rw [← h]
  exact hchars _

/-! ## Trimming -/

theorem dropWhile_units (cs : List Char) :
    ∃ cs' : List Char, (cs.flatMap charUnits).dropWhile isSpace = cs'.flatMap charUnits := by
  induction cs with
  | nil => exact ⟨[], rfl⟩
  | cons c rest ih =>
    rcases charUnits_cases c with ⟨-, u, hunits, -⟩ | ⟨high, low, hunits, hhigh, -⟩
    · by_cases hspace : isSpace u = true
      · rw [List.flatMap_cons, hunits, List.singleton_append, List.dropWhile_cons_of_pos hspace]
        exact ih
      · refine ⟨c :: rest, ?_⟩
        rw [List.flatMap_cons, hunits, List.singleton_append, List.dropWhile_cons_of_neg hspace]
    · refine ⟨c :: rest, ?_⟩
      rw [List.flatMap_cons, hunits, List.cons_append, List.dropWhile_cons_of_neg]
      rw [isSpace_of_high hhigh]
      exact Bool.false_ne_true

theorem rdropWhile_units (cs : List Char) :
    ∃ cs' : List Char, (cs.flatMap charUnits).rdropWhile isSpace = cs'.flatMap charUnits := by
  induction cs using List.reverseRecOn with
  | nil => exact ⟨[], rfl⟩
  | append_singleton rest c ih =>
    have hsplit : (rest ++ [c]).flatMap charUnits = rest.flatMap charUnits ++ charUnits c := by simp
    rcases charUnits_cases c with ⟨-, u, hunits, -⟩ | ⟨high, low, hunits, -, hlow⟩
    · by_cases hspace : isSpace u = true
      · rw [hsplit, hunits, List.rdropWhile_concat_pos _ _ _ hspace]
        exact ih
      · refine ⟨rest ++ [c], ?_⟩
        rw [hsplit, hunits, List.rdropWhile_concat_neg _ _ _ hspace]
    · refine ⟨rest ++ [c], ?_⟩
      have hlast : rest.flatMap charUnits ++ [high, low] =
          (rest.flatMap charUnits ++ [high]) ++ [low] := by simp
      rw [hsplit, hunits, hlast, List.rdropWhile_concat_neg]
      rw [isSpace_of_low hlow]
      exact Bool.false_ne_true

/-- The string whose text is that of `s`, trimmed. -/
def trimmed (s : String) : String := (ofString s).trim.toUnicode

theorem ofString_trimmed (s : String) : ofString (trimmed s) = (ofString s).trim := by
  obtain ⟨cs, hcs⟩ := dropWhile_units s.toList
  obtain ⟨cs', hcs'⟩ := rdropWhile_units cs
  have htrim : (ofString s).trim = ofString (String.ofList cs') := by
    show ((s.toList.flatMap charUnits).dropWhile isSpace).rdropWhile isSpace = _
    rw [hcs, hcs', ofString, String.toList_ofList]
  rw [trimmed, htrim]
  exact isUnicode_ofString _

theorem trimmed_eq_empty {s : String} : trimmed s = "" ↔ (ofString s).trim = [] := toUnicode_eq_empty

/-! ## Other texts -/

theorem charUnits_loneChar (u : UInt16) :
    ∃ w, charUnits (loneChar u) = [w] ∧ isSpace u = isSpace w := by
  by_cases hu : (isHigh u || isLow u) = true
  · refine ⟨0xFFFD, ?_, ?_⟩
    · rw [loneChar, if_pos hu]
      rfl
    · have hreplaced : isSpace 0xFFFD = false := rfl
      rw [hreplaced]
      rcases Bool.or_eq_true_iff.mp hu with h | h
      · exact isSpace_of_high h
      · exact isSpace_of_low h
  · refine ⟨u, ?_, rfl⟩
    have hsize : u.toNat < 0x10000 := u.toNat_lt
    have hvalid : u.toNat.isValidChar := by
      simp only [isHigh, isLow, Bool.or_eq_true, Bool.and_eq_true, decide_eq_true_eq] at hu
      unfold Nat.isValidChar
      omega
    rw [loneChar, if_neg hu, charUnits, toNat_ofNat hvalid, if_pos hsize]
    exact congrArg (fun w => [w]) UInt16.ofNat_toNat

/-- White space stands in the same places. -/
theorem forall₂_toUnicode (t : Text) :
    List.Forall₂ (fun u w => isSpace u = isSpace w) t (ofString t.toUnicode) := by
  rw [ofString, toUnicode, String.toList_ofList]
  fun_induction chars t with
  | case1 => exact .nil
  | case2 u =>
    obtain ⟨w, hunits, hspace⟩ := charUnits_loneChar u
    rw [List.flatMap_cons, hunits]
    exact .cons hspace .nil
  | case3 u w rest hpair ih =>
    obtain ⟨hhigh, hlow⟩ := Bool.and_eq_true_iff.mp hpair
    have hpoint : 0x10000 ≤ (pairChar u w).toNat := by
      simp only [isHigh, isLow, Bool.and_eq_true, decide_eq_true_eq] at hhigh hlow
      rw [pairChar, toNat_ofNat (.inr ⟨by omega, by omega⟩)]
      omega
    rcases charUnits_cases (pairChar u w) with ⟨hsmall, -⟩ | ⟨high, low, hunits, hhigh', hlow'⟩
    · omega
    · rw [List.flatMap_cons, hunits]
      refine .cons ?_ (.cons ?_ ih)
      · rw [isSpace_of_high hhigh, isSpace_of_high hhigh']
      · rw [isSpace_of_low hlow, isSpace_of_low hlow']
  | case4 u w rest hpair ih =>
    obtain ⟨w', hunits, hspace⟩ := charUnits_loneChar u
    rw [List.flatMap_cons, hunits]
    exact .cons hspace ih

theorem forall₂_dropWhile {t t' : Text}
    (h : List.Forall₂ (fun u w => isSpace u = isSpace w) t t') :
    List.Forall₂ (fun u w => isSpace u = isSpace w) (t.dropWhile isSpace)
      (t'.dropWhile isSpace) := by
  induction h with
  | nil => exact .nil
  | @cons u w rest rest' huw hrest ih =>
    by_cases hspace : isSpace u = true
    · rw [List.dropWhile_cons_of_pos hspace, List.dropWhile_cons_of_pos (huw ▸ hspace)]
      exact ih
    · rw [List.dropWhile_cons_of_neg hspace, List.dropWhile_cons_of_neg (huw ▸ hspace)]
      exact .cons huw hrest

theorem length_trim_eq {t t' : Text} (h : List.Forall₂ (fun u w => isSpace u = isSpace w) t t') :
    t.trim.length = t'.trim.length := by
  have hstart := List.forall₂_reverse_iff.mpr (forall₂_dropWhile h)
  exact (List.forall₂_reverse_iff.mpr (forall₂_dropWhile hstart)).length_eq

theorem trim_sublist (t : Text) : t.trim.Sublist t :=
  (List.rdropWhile_prefix _ _).sublist.trans (List.dropWhile_sublist _)

/-- Nothing is left to trim of a text that has been trimmed. -/
theorem trimmed_toUnicode {t : Text} (h : t.trim = t) : trimmed t.toUnicode = t.toUnicode := by
  have hunits := forall₂_toUnicode t
  have hlength : (ofString t.toUnicode).trim.length = (ofString t.toUnicode).length := by
    rw [← length_trim_eq hunits, h, hunits.length_eq]
  rw [trimmed, (trim_sublist _).eq_of_length hlength, toUnicode_ofString]

end Text

end Interbellum.Utf16
