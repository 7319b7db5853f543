import Interbellum.Ecma.Json
import Interbellum.Text.JsonPrint

/-!
# The text that `JSON.stringify` writes

Numbers are printed with as few digits as tell them from other doubles, strings with the escapes
that they need, and objects and arrays with an indentation or without.

* `Value.Precise.prints`: every value of doubles can be written, and is read back as it was.
-/

namespace Interbellum.Ecma

open Utf16 (Text unit isHigh isLow)
open JsonText

/-! ## Digits -/

theorem head_toDigits {n : ℕ} (hn : n ≠ 0) : (Nat.toDigits 10 n).head? ≠ some '0' := by
  induction n using Nat.strong_induction_on with
  | _ n ih =>
    by_cases hlt : n < 10
    · rw [Nat.toDigits_of_lt_base hlt]
      have : ∀ m < 10, m ≠ 0 → [Nat.digitChar m].head? ≠ some '0' := by decide
      exact this n hlt hn
    · rw [Nat.toDigits_of_base_le (by norm_num) (by omega),
        List.head?_append_of_ne_nil _ Nat.toDigits_ne_nil]
      exact ih (n / 10) (by omega) (by omega)

theorem head_natText {n : ℕ} (hn : n ≠ 0) : (natText n).head? ≠ some (unit '0') := by
  have hhead := head_toDigits hn
  rw [natText, List.head?_map]
  intro h
  obtain ⟨c, hc, hunit⟩ := Option.map_eq_some_iff.mp h
  have hdigit : c.isDigit = true :=
    Nat.isDigit_of_mem_toDigits (by norm_num) le_rfl (List.mem_of_mem_head? hc)
  have hnat := congrArg UInt16.toNat hunit
  rw [unit_toNat hdigit] at hnat
  rw [hc] at hhead
  exact hhead (congrArg some (Char.ext (UInt32.toNat.inj hnat)))

theorem parseWhole_natText {n : ℕ} {rest : Text} (hrest : NoDigit rest) :
    parseWhole (natText n ++ rest) = .ok (natText n, rest) := by
  by_cases hn : n = 0
  · subst hn
    rfl
  · rw [parseWhole, List.head?_append_of_ne_nil _ (natText_ne_nil n), if_neg (head_natText hn)]
    exact parseDigits_append (natText_ne_nil n) (fun _ => isDigit_of_mem_natText) hrest

theorem parseExponent_natText {n : ℕ} {rest : Text} (negative : Bool) (hrest : NoDigit rest) :
    parseExponent (unit 'e' :: (if negative then unit '-' else unit '+') :: (natText n ++ rest)) =
      .ok (some (if negative then -n else n), rest) := by
  have hdigits := parseDigits_append (natText_ne_nil n) (fun _ => isDigit_of_mem_natText) hrest
  cases negative <;>
    simp [parseExponent, hdigits, digitsValue_natText, show unit '+' ≠ unit '-' by decide]

theorem parseNumber_integerText {n : ℤ} {rest : Text} (hrest : Ends rest) :
    parseNumber (integerText n ++ rest) = .ok (.num n true, rest) := by
  have htext : integerText n ++ rest =
      (if decide (n < 0) then [unit '-'] else []) ++ (natText n.natAbs ++ rest) := by
    by_cases hn : n < 0 <;> simp [integerText, hn]
  have hvalue :
      numberValue (decide (n < 0)) (natText n.natAbs) [] ((none : Option ℤ).getD 0) = n := by
    rw [numberValue, List.append_nil, digitsValue_natText]
    by_cases hn : n < 0
    · simp [hn, Nat.cast_natAbs, abs_of_neg hn]
    · simp [hn, Nat.cast_natAbs, abs_of_nonneg (not_lt.mp hn)]
  rw [htext, parseNumber_parts (head_digits (fun _ => isDigit_of_mem_natText) rfl)
    (natText_ne_nil _) (parseWhole_natText hrest.noDigit)
    (parseFraction_none fun h => (hrest _ h).2.1 rfl) (parseExponent_none hrest), hvalue]
  rfl

/-! ## Fractions -/

theorem length_natText {n k : ℕ} (hlo : 10 ^ k ≤ n) (hhi : n < 10 ^ (k + 1)) :
    (natText n).length = k + 1 := by
  rw [natText, List.length_map]
  have hle := (Nat.length_toDigits_le_iff (by norm_num) (Nat.succ_pos k)).mpr hhi
  rcases Nat.eq_zero_or_pos k with rfl | hk
  · have := Nat.length_toDigits_pos (b := 10) (n := n)
    omega
  · have :=
      (Nat.length_toDigits_le_iff (b := 10) (n := n) (by norm_num) hk).not.mpr (not_lt.mpr hlo)
    omega

/-- The number has few enough digits to be printed. -/
def Printable (q : Rat) : Prop :=
  ∃ k : ℕ, k < 1200 ∧ (q * 10 ^ ((k : ℤ) - Int.log 10 q)).den = 1

theorem significand_spec {q : Rat} (hq : 0 < q) (h : Printable q) :
    ∃ s k : ℕ, significand q (Int.log 10 q) = natText s ∧ (natText s).length = k + 1 ∧ s ≠ 0 ∧
      q = s * 10 ^ (Int.log 10 q - k) := by
  obtain ⟨k, hk, hden⟩ := h
  have hsome : (((List.range 1200).map fun k : ℕ => q * 10 ^ ((k : ℤ) - Int.log 10 q)).find?
      (·.den = 1)).isSome := by
    rw [List.find?_isSome]
    exact ⟨_, List.mem_map_of_mem (List.mem_range.mpr hk), decide_eq_true hden⟩
  obtain ⟨r, hr⟩ := Option.isSome_iff_exists.mp hsome
  obtain ⟨j, -, rfl⟩ := List.mem_map.mp (List.mem_of_find?_eq_some hr)
  have hint : (q * 10 ^ ((j : ℤ) - Int.log 10 q)).den = 1 := by simpa using List.find?_some hr
  have hpos : 0 < q * 10 ^ ((j : ℤ) - Int.log 10 q) := by positivity
  obtain ⟨s, hs⟩ : ∃ s : ℕ, q * 10 ^ ((j : ℤ) - Int.log 10 q) = s := by
    have hnum := Rat.coe_int_num_of_den_eq_one hint
    refine ⟨(q * 10 ^ ((j : ℤ) - Int.log 10 q)).num.natAbs, ?_⟩
    rw [Nat.cast_natAbs, abs_of_pos (Rat.num_pos.mpr hpos)]
    exact hnum.symm
  refine ⟨s, j, ?_, ?_, ?_, ?_⟩
  · unfold significand
    rw [hr, hs]
    simp
  · have hlo := Int.zpow_log_le_self (b := 10) (by norm_num) hq
    have hhi := Int.lt_zpow_succ_log_self (b := 10) (by norm_num) q
    have hscale : (0 : Rat) < 10 ^ ((j : ℤ) - Int.log 10 q) := by positivity
    apply length_natText
    · have hle := mul_le_mul_of_nonneg_right hlo hscale.le
      rw [hs, Nat.cast_ofNat, ← zpow_add₀ (by norm_num), add_sub_cancel, zpow_natCast] at hle
      exact_mod_cast hle
    · have hlt := mul_lt_mul_of_pos_right hhi hscale
      rw [hs, Nat.cast_ofNat, ← zpow_add₀ (by norm_num),
        show Int.log 10 q + 1 + ((j : ℤ) - Int.log 10 q) = (j + 1 : ℕ) by push_cast; ring,
        zpow_natCast] at hlt
      exact_mod_cast hlt
  · rintro rfl
    rw [hs] at hpos
    simp at hpos
  · have hexponent : (j : ℤ) - Int.log 10 q + (Int.log 10 q - j) = 0 := by ring
    rw [← hs, mul_assoc, ← zpow_add₀ (by norm_num), hexponent, zpow_zero, mul_one]

theorem parseWhole_append {whole rest : Text} (hne : whole ≠ [])
    (hdigits : ∀ u ∈ whole, isDigit u = true) (hhead : whole.head? ≠ some (unit '0'))
    (hrest : NoDigit rest) : parseWhole (whole ++ rest) = .ok (whole, rest) := by
  rw [parseWhole, List.head?_append_of_ne_nil _ hne, if_neg hhead]
  exact parseDigits_append hne hdigits hrest

theorem numberValue_eq {negative : Bool} {whole fraction : Text} {exponent e : ℤ} {s : ℕ}
    (hdigits : digitsValue (whole ++ fraction) = s) (he : exponent - fraction.length = e) :
    numberValue negative whole fraction exponent =
      if negative then -(s * 10 ^ e : Rat) else s * 10 ^ e := by
  rw [numberValue, hdigits, he]
  cases negative <;> simp

theorem digitsValue_zeros (n : ℕ) (t : Text) :
    digitsValue (List.replicate n (unit '0') ++ t) = digitsValue t := by
  induction n with
  | zero => rfl
  | succ n ih => exact ih

section

variable {q : Rat} {s k : ℕ} {rest : Text}

/-- The point is among the digits. -/
theorem parseNumber_pointed {point : ℕ} (negative : Bool) (hs : s ≠ 0)
    (hlength : (natText s).length = k + 1) (hpoint : 0 < point) (hk : point < k + 1)
    (hvalue : q = s * 10 ^ ((point : ℤ) - 1 - k)) (hrest : Ends rest) :
    parseNumber ((if negative then [unit '-'] else []) ++
      ((natText s).take point ++ unit '.' :: (natText s).drop point ++ rest)) =
        .ok (.num (if negative then -q else q) false, rest) := by
  have htake : ∀ u ∈ (natText s).take point, isDigit u = true :=
    fun u hu => isDigit_of_mem_natText (List.mem_of_mem_take hu)
  have hdrop : ∀ u ∈ (natText s).drop point, isDigit u = true :=
    fun u hu => isDigit_of_mem_natText (List.mem_of_mem_drop hu)
  have hwhole : (natText s).take point ≠ [] := by
    rw [← List.length_pos_iff, List.length_take]
    omega
  have hfraction : (natText s).drop point ≠ [] := by
    rw [← List.length_pos_iff, List.length_drop]
    omega
  have hhead : ((natText s).take point).head? ≠ some (unit '0') := by
    rw [List.head?_take, if_neg (by omega)]
    exact head_natText hs
  have hnumber : numberValue negative ((natText s).take point) ((natText s).drop point)
      ((none : Option ℤ).getD 0) = if negative then -q else q := by
    rw [hvalue]
    apply numberValue_eq
    · rw [List.take_append_drop, digitsValue_natText]
    · rw [List.length_drop, Option.getD_none]
      omega
  rw [List.append_assoc, parseNumber_parts (head_digits htake rfl) hwhole
    (parseWhole_append hwhole htake hhead ?_)
    (parseFraction_digits hfraction hdrop hrest.noDigit) (parseExponent_none hrest), hnumber]
  · rw [List.isEmpty_eq_false_iff.mpr hfraction]
    rfl
  · intro u hu
    obtain rfl := Option.some.inj hu
    rfl

/-- The point is before the digits. -/
theorem parseNumber_small {zeros : ℕ} (negative : Bool) (hlength : (natText s).length = k + 1)
    (hvalue : q = s * 10 ^ (-(zeros : ℤ) - 1 - k)) (hrest : Ends rest) :
    parseNumber ((if negative then [unit '-'] else []) ++
      (unit '0' :: unit '.' :: List.replicate zeros (unit '0') ++ natText s ++ rest)) =
        .ok (.num (if negative then -q else q) false, rest) := by
  have hdigits : ∀ u ∈ List.replicate zeros (unit '0') ++ natText s, isDigit u = true := by
    intro u hu
    rcases List.mem_append.mp hu with hzero | hu
    · rw [List.eq_of_mem_replicate hzero]
      rfl
    · exact isDigit_of_mem_natText hu
  have hne : List.replicate zeros (unit '0') ++ natText s ≠ [] :=
    List.append_ne_nil_of_right_ne_nil _ (natText_ne_nil s)
  have hnumber : numberValue negative [unit '0'] (List.replicate zeros (unit '0') ++ natText s)
      ((none : Option ℤ).getD 0) = if negative then -q else q := by
    rw [hvalue]
    apply numberValue_eq
    · exact (digitsValue_zeros (zeros + 1) (natText s)).trans (digitsValue_natText s)
    · rw [List.length_append, List.length_replicate, hlength, Option.getD_none]
      omega
  have htext : unit '0' :: unit '.' :: List.replicate zeros (unit '0') ++ natText s ++ rest =
      [unit '0'] ++ (unit '.' :: (List.replicate zeros (unit '0') ++ natText s) ++ rest) := by
    simp
  rw [htext, parseNumber_parts (by decide) (List.cons_ne_nil _ _) rfl
    (parseFraction_digits hne hdigits hrest.noDigit) (parseExponent_none hrest), hnumber,
    List.isEmpty_eq_false_iff.mpr hne]
  rfl

theorem noDigit_cons {u : UInt16} {rest : Text} (hu : isDigit u = false) : NoDigit (u :: rest) := by
  intro w hw
  obtain rfl := Option.some.inj hw
  exact hu

/-- The digits are followed by an exponent. -/
theorem parseNumber_scientific {e : ℤ} (negative : Bool) (hs : s ≠ 0)
    (hlength : (natText s).length = k + 1) (hvalue : q = s * 10 ^ (e - k)) (hrest : Ends rest) :
    parseNumber ((if negative then [unit '-'] else []) ++
      ((natText s).take 1 ++ (if (natText s).length ≤ 1 then [] else unit '.' :: (natText s).drop 1) ++
        unit 'e' :: (if 0 ≤ e then unit '+' else unit '-') :: natText e.natAbs ++ rest)) =
        .ok (.num (if negative then -q else q) false, rest) := by
  have htake : ∀ u ∈ (natText s).take 1, isDigit u = true :=
    fun u hu => isDigit_of_mem_natText (List.mem_of_mem_take hu)
  have hdrop : ∀ u ∈ (natText s).drop 1, isDigit u = true :=
    fun u hu => isDigit_of_mem_natText (List.mem_of_mem_drop hu)
  have hwhole : (natText s).take 1 ≠ [] := by
    rw [← List.length_pos_iff, List.length_take]
    omega
  have hhead : ((natText s).take 1).head? ≠ some (unit '0') := by
    rw [List.head?_take, if_neg one_ne_zero]
    exact head_natText hs
  have hexponent : parseExponent (unit 'e' :: (if 0 ≤ e then unit '+' else unit '-') ::
      (natText e.natAbs ++ rest)) = .ok (some e, rest) := by
    have h := parseExponent_natText (n := e.natAbs) (!decide (0 ≤ e)) hrest.noDigit
    by_cases he : 0 ≤ e
    · simpa [he, abs_of_nonneg he] using h
    · simpa [he, abs_of_neg (not_le.mp he)] using h
  have hnumber : numberValue negative ((natText s).take 1) ((natText s).drop 1)
      ((some e).getD 0) = if negative then -q else q := by
    rw [hvalue]
    apply numberValue_eq
    · rw [List.take_append_drop, digitsValue_natText]
    · rw [List.length_drop, Option.getD_some]
      omega
  rw [← hnumber]
  by_cases hk : (natText s).length ≤ 1
  · rw [if_pos hk, List.append_nil, List.append_assoc, List.drop_eq_nil_of_le hk]
    refine parseNumber_parts (head_digits htake rfl) hwhole
      (parseWhole_append hwhole htake hhead (noDigit_cons rfl)) (parseFraction_none ?_) hexponent
    rw [List.cons_append, List.head?_cons]
    decide
  · have hfraction : (natText s).drop 1 ≠ [] := by
      rw [← List.length_pos_iff, List.length_drop]
      omega
    have hread : parseFraction (unit '.' :: (natText s).drop 1 ++ unit 'e' ::
        (if 0 ≤ e then unit '+' else unit '-') :: (natText e.natAbs ++ rest)) =
          .ok ((natText s).drop 1, _) := parseFraction_digits hfraction hdrop (noDigit_cons rfl)
    rw [if_neg hk, List.append_assoc, List.append_assoc]
    have h := @parseNumber_parts negative _ _ _ _ _ _ (head_digits htake rfl) hwhole
      (parseWhole_append hwhole htake hhead (noDigit_cons (by rfl))) hread hexponent
    rw [List.isEmpty_eq_false_iff.mpr hfraction] at h
    exact h

end

/-- A number whose digits end before the point is an integer. -/
theorem point_lt {q : Rat} {s k : ℕ} (hvalue : q = s * 10 ^ (Int.log 10 q - k))
    (hfraction : ¬ (q.den = 1 ∧ q < 10 ^ 21)) (hlog : Int.log 10 q < 21) : Int.log 10 q < k := by
  by_contra hk
  apply hfraction
  obtain ⟨n, hn⟩ := Int.eq_ofNat_of_zero_le (sub_nonneg.mpr (not_lt.mp hk))
  constructor
  · rw [hvalue, hn]
    have hcast : (s : Rat) * 10 ^ (n : ℤ) = ((s * 10 ^ n : ℕ) : Rat) := by
      push_cast
      rw [zpow_natCast]
    rw [hcast]
    exact Rat.den_natCast _
  · have hhi := Int.lt_zpow_succ_log_self (b := 10) (by norm_num) q
    refine hhi.trans_le ?_
    rw [Nat.cast_ofNat, ← zpow_natCast]
    exact zpow_le_zpow_right₀ (by norm_num) (by omega)

/-- A positive number that is no integer of at most 21 digits is read back. -/
theorem parseNumber_fractionText {q : Rat} {rest : Text} (negative : Bool) (hq : 0 < q)
    (hprintable : Printable q) (hfraction : ¬ (q.den = 1 ∧ q < 10 ^ 21)) (hrest : Ends rest) :
    parseNumber ((if negative then [unit '-'] else []) ++ (fractionText q ++ rest)) =
      .ok (.num (if negative then -q else q) false, rest) := by
  obtain ⟨s, k, hdigits, hlength, hs, hvalue⟩ := significand_spec hq hprintable
  unfold fractionText
  dsimp only
  rw [hdigits]
  by_cases hlarge : 0 ≤ Int.log 10 q ∧ Int.log 10 q < 21
  · have hpoint := point_lt hvalue hfraction hlarge.2
    have hexponent : Int.log 10 q - k = ((Int.log 10 q + 1).toNat : ℤ) - 1 - k := by omega
    rw [hexponent] at hvalue
    rw [if_pos hlarge]
    exact parseNumber_pointed negative hs hlength (by omega) (by omega) hvalue hrest
  · rw [if_neg hlarge]
    by_cases hsmall : -6 ≤ Int.log 10 q ∧ Int.log 10 q < 0
    · have hexponent : Int.log 10 q - k = -((-Int.log 10 q - 1).toNat : ℤ) - 1 - k := by omega
      rw [hexponent] at hvalue
      rw [if_pos hsmall]
      exact parseNumber_small negative hlength hvalue hrest
    · rw [if_neg hsmall]
      exact parseNumber_scientific negative hs hlength hvalue hrest

/-! ## Doubles -/

theorem printable_of {q : Rat} {s j : ℤ} (hq : 0 < q) (hvalue : q = s * 10 ^ j)
    (hlt : q < 10 ^ (j + 1200)) : Printable q := by
  have hten : (0 : Rat) < 10 ^ j := by positivity
  have hs : (1 : Rat) ≤ s := by
    rw [hvalue] at hq
    exact_mod_cast (mul_pos_iff_of_pos_right hten).mp hq
  have hlo : j ≤ Int.log 10 q := by
    apply (Int.zpow_le_iff_le_log (b := 10) (by norm_num) hq).mp
    rw [hvalue, Nat.cast_ofNat]
    exact le_mul_of_one_le_left hten.le hs
  have hhi : Int.log 10 q < j + 1200 := by
    apply (Int.lt_zpow_iff_log_lt (b := 10) (by norm_num) hq).mp
    exact_mod_cast hlt
  obtain ⟨k, hk⟩ := Int.eq_ofNat_of_zero_le (sub_nonneg.mpr hlo)
  refine ⟨k, by omega, ?_⟩
  have hint : q * 10 ^ ((k : ℤ) - Int.log 10 q) = s := by
    rw [show (k : ℤ) - Int.log 10 q = -j by omega, zpow_neg, hvalue]
    exact mul_inv_cancel_right₀ hten.ne' _
  rw [hint]
  exact Rat.den_intCast s

/-- The number has no more than 53 bits. -/
def Binary64.Precise (x : Binary64) : Prop :=
  ∃ m e : ℤ, x.value = m * 2 ^ e ∧ -1074 ≤ e ∧ |m| ≤ 2 ^ 53

theorem roundEven_le {q : Rat} {m : ℤ} (h : q ≤ m) : roundEven q ≤ m := by
  have hneg : -m ≤ roundEven (-q) := le_roundEven (by push_cast; linarith)
  rw [roundEven_neg] at hneg
  omega

theorem precise_of_ofRat {q : Rat} {x : Binary64} (hx : Number.ofRat q = .finite x) :
    x.Precise := by
  have hvalue : x.value = nearest q := by
    unfold Number.ofRat at hx
    split_ifs at hx
    rw [← Number.finite.inj hx]
  refine ⟨roundEven (q / 2 ^ lastBit q), lastBit q, hvalue, le_max_right _ _, ?_⟩
  have habs : |q / 2 ^ lastBit q| ≤ 2 ^ 53 := by
    have hbit : (0 : Rat) < 2 ^ lastBit q := by positivity
    rw [abs_div, abs_of_pos hbit, div_le_iff₀ hbit]
    have hhi := Int.lt_zpow_succ_log_self (b := 2) one_lt_two |q|
    refine hhi.le.trans ?_
    rw [Nat.cast_ofNat, ← zpow_natCast, ← zpow_add₀ two_ne_zero]
    refine zpow_le_zpow_right₀ one_le_two ?_
    have : Int.log 2 |q| - 52 ≤ lastBit q := le_max_left _ _
    push_cast
    omega
  rw [abs_le] at habs ⊢
  constructor
  · exact le_roundEven (by push_cast; exact habs.1)
  · exact roundEven_le (by push_cast; exact habs.2)

/-- A double with all its digits. -/
theorem printable_grid {m e : ℤ} (hq : 0 < (m * 2 ^ e : Rat)) (he : -1074 ≤ e) (hm : |m| ≤ 2 ^ 53)
    (hfinite : (m * 2 ^ e : Rat) < 2 ^ 1024) : Printable (m * 2 ^ e) := by
  rcases le_or_gt 0 e with hpos | hneg
  · obtain ⟨n, rfl⟩ := Int.eq_ofNat_of_zero_le hpos
    refine printable_of (s := m * 2 ^ n) (j := 0) hq (by push_cast; rw [zpow_natCast]; ring) ?_
    refine hfinite.trans ?_
    calc (2 : Rat) ^ 1024 ≤ 10 ^ 1024 := pow_le_pow_left₀ zero_le_two (by norm_num) _
      _ < 10 ^ (0 + 1200 : ℤ) := by
        rw [← zpow_natCast]
        exact zpow_lt_zpow_right₀ (by norm_num) (by norm_num)
  · obtain ⟨n, hn⟩ := Int.eq_ofNat_of_zero_le (a := e + 1074) (by omega)
    have hten : (10 : Rat) ^ (-1074 : ℤ) = 2 ^ (-1074 : ℤ) * 5 ^ (-1074 : ℤ) := by
      rw [← mul_zpow, show (2 * 5 : Rat) = 10 by norm_num]
    refine printable_of (s := m * 2 ^ n * 5 ^ 1074) (j := -1074) hq ?_ ?_
    · have hfive : (5 : Rat) ^ 1074 * 5 ^ (-1074 : ℤ) = 1 := by
        rw [← zpow_natCast, ← zpow_add₀ (by norm_num)]
        rfl
      have htwo : (2 : Rat) ^ e = 2 ^ n * 2 ^ (-1074 : ℤ) := by
        rw [← zpow_natCast, ← zpow_add₀ two_ne_zero]
        congr 1
        omega
      rw [hten, htwo, Int.cast_mul, Int.cast_mul, Int.cast_pow, Int.cast_pow, Int.cast_ofNat,
        Int.cast_ofNat]
      generalize (5 : Rat) ^ 1074 = a, (5 : Rat) ^ (-1074 : ℤ) = b at hfive ⊢
      calc (m * (2 ^ n * 2 ^ (-1074 : ℤ)) : Rat)
          = m * 2 ^ n * 2 ^ (-1074 : ℤ) * (a * b) := by rw [hfive]; ring
        _ = m * 2 ^ n * a * (2 ^ (-1074 : ℤ) * b) := by ring
    · have hm' : (m : Rat) ≤ 2 ^ 53 := by exact_mod_cast (le_abs_self m).trans hm
      calc (m * 2 ^ e : Rat) ≤ 2 ^ 53 * 1 := by
            refine mul_le_mul hm' ?_ (by positivity) (by positivity)
            exact zpow_le_one_of_nonpos₀ one_le_two hneg.le
        _ < 10 ^ (-1074 + 1200 : ℤ) := by norm_num

/-- A double has few enough digits to be printed, also when no shorter decimal rounds to it. -/
theorem shortest_printable {m e : ℤ} (hq : 0 < (m * 2 ^ e : Rat)) (he : -1074 ≤ e)
    (hm : |m| ≤ 2 ^ 53) (hfinite : (m * 2 ^ e : Rat) < 2 ^ 1024) :
    0 < shortest (m * 2 ^ e) ∧ Printable (shortest (m * 2 ^ e)) := by
  rcases shortest_spec (m * 2 ^ e) with heq | ⟨k, hk, hk17, hc⟩
  · rw [heq]
    exact ⟨hq, printable_grid hq he hm hfinite⟩
  · generalize (m * 2 ^ e : Rat) = q at *
    obtain ⟨-, s, hs, hshown⟩ := shownWith_eq_some hc
    have hten : (0 : Rat) < 10 ^ (Int.log 10 q + 1 - k) := by positivity
    have hfloor : 1 ≤ ⌊q / 10 ^ (Int.log 10 q + 1 - k)⌋ := by
      rw [Int.le_floor, Int.cast_one, one_le_div hten]
      exact unit_le hq hk
    have hpos : 0 < shortest q := by
      rw [hshown]
      exact mul_pos (by exact_mod_cast (show 0 < s by omega)) hten
    refine ⟨hpos, printable_of hpos hshown ?_⟩
    have hhi := Int.lt_zpow_succ_log_self (b := 10) (by norm_num) q
    rw [Nat.cast_ofNat] at hhi
    calc shortest q ≤ 2 * q := (shortest_bounds hq).2
      _ < 10 * 10 ^ (Int.log 10 q + 1) := by linarith
      _ = 10 ^ (Int.log 10 q + 1 + 1) := by
        rw [zpow_add_one₀ (by norm_num) (Int.log 10 q + 1), mul_comm]
      _ ≤ 10 ^ (Int.log 10 q + 1 - k + 1200) := zpow_le_zpow_right₀ (by norm_num) (by omega)

theorem Binary64.abs_shown {x : Binary64} (hx : x.Precise) (hne : x.shown ≠ 0) :
    0 < |x.shown| ∧ Printable |x.shown| := by
  obtain ⟨m, e, hvalue, he, hm⟩ := hx
  have hfinite := x.finite
  rcases x.shown_neg_or with ⟨-, hshown⟩ | ⟨q, hq, h⟩
  · exact absurd hshown hne
  · have habs : |x.shown| = shortest q := by
      rcases h with ⟨-, hshown⟩ | ⟨-, hshown⟩ <;>
        rw [hshown, ← abs_of_nonneg (shortest_bounds hq).1]
      · rw [abs_abs]
      · rw [abs_neg, abs_abs]
    have hgrid : ∃ m' : ℤ, q = m' * 2 ^ e ∧ |m'| ≤ 2 ^ 53 := by
      rcases h with ⟨hpos, -⟩ | ⟨hneg, -⟩
      · exact ⟨m, hpos ▸ hvalue, hm⟩
      · refine ⟨-m, ?_, by rwa [abs_neg]⟩
        rw [Int.cast_neg, neg_mul, ← hvalue, hneg, neg_neg]
    have hlt : q < 2 ^ 1024 := by
      rcases h with ⟨hpos, -⟩ | ⟨hneg, -⟩
      · rwa [hpos, abs_of_pos hq] at hfinite
      · rwa [hneg, abs_neg, abs_of_pos hq] at hfinite
    obtain ⟨m', rfl, hm'⟩ := hgrid
    rw [habs]
    exact shortest_printable hq he hm' hlt

/-! ## Numbers of a document -/

def decimalText (q : Rat) : Text :=
  if q.den = 1 ∧ |q| < 10 ^ 21 then integerText q.num
  else if q < 0 then unit '-' :: fractionText |q|
  else fractionText q

theorem parseNumber_decimalText {q : Rat} {rest : Text} (hq : q ≠ 0 → Printable |q|)
    (hrest : Ends rest) : parseNumber (decimalText q ++ rest) =
      .ok (.num q (q.den = 1 && |q| < 10 ^ 21), rest) := by
  unfold decimalText
  by_cases hint : q.den = 1 ∧ |q| < 10 ^ 21
  · rw [if_pos hint, parseNumber_integerText hrest, Rat.coe_int_num_of_den_eq_one hint.1]
    simp [hint.1, hint.2]
  · have hne : q ≠ 0 := by
      rintro rfl
      exact hint ⟨rfl, by simp⟩
    have hplain : (decide (q.den = 1) && decide (|q| < 10 ^ 21)) = false := by
      rw [Bool.eq_false_iff, Ne, Bool.and_eq_true, decide_eq_true_eq, decide_eq_true_eq]
      exact hint
    have hden : |q|.den = q.den := by
      rcases abs_choice q with h | h <;> rw [h]
      exact Rat.den_neg_eq_den q
    have h := fun negative => parseNumber_fractionText negative (abs_pos.mpr hne) (hq hne)
      (by rwa [hden]) hrest
    rw [if_neg hint, hplain]
    by_cases hneg : q < 0
    · rw [if_pos hneg]
      have := h true
      rw [abs_of_neg hneg] at this ⊢
      simpa using this
    · rw [if_neg hneg]
      have := h false
      rw [abs_of_nonneg (not_lt.mp hneg)] at this
      simpa using this

theorem head_fractionText {q : Rat} (hq : 0 < q) (hprintable : Printable q) :
    ∃ u rest, fractionText q = u :: rest ∧ isDigit u = true := by
  obtain ⟨s, k, hdigits, hlength, -, -⟩ := significand_spec hq hprintable
  obtain ⟨u, digits, hs⟩ := List.exists_cons_of_ne_nil (natText_ne_nil s)
  have hu : isDigit u = true := isDigit_of_mem_natText (hs ▸ List.mem_cons_self)
  unfold fractionText
  dsimp only
  rw [hdigits, hs]
  split_ifs with hlarge hsmall hone
  · obtain ⟨point, hpoint⟩ : ∃ point, (Int.log 10 q + 1).toNat = point + 1 :=
      Nat.exists_eq_succ_of_ne_zero (by omega)
    rw [hpoint, List.take_succ_cons]
    exact ⟨_, _, rfl, hu⟩
  · exact ⟨_, _, rfl, rfl⟩
  all_goals exact ⟨_, _, rfl, hu⟩

theorem head_decimalText {q : Rat} (hq : q ≠ 0 → Printable |q|) :
    ∃ u rest, decimalText q = u :: rest ∧ (u = unit '-' ∨ isDigit u = true) := by
  unfold decimalText
  split_ifs with hint hneg
  · unfold integerText
    split_ifs
    · exact ⟨_, _, rfl, .inl rfl⟩
    · obtain ⟨u, digits, hn⟩ := List.exists_cons_of_ne_nil (natText_ne_nil q.num.natAbs)
      exact ⟨u, digits, hn, .inr (isDigit_of_mem_natText (hn ▸ List.mem_cons_self))⟩
  · exact ⟨_, _, rfl, .inl rfl⟩
  · have hpos : 0 < q := by
      refine lt_of_le_of_ne (not_lt.mp hneg) ?_
      rintro rfl
      exact hint ⟨rfl, by simp⟩
    rw [abs_of_pos hpos] at hq
    obtain ⟨u, rest, htext, hu⟩ := head_fractionText hpos (hq hpos.ne')
    exact ⟨u, rest, htext, .inr hu⟩

/-! ## Strings -/

/-- The escape of one unit that is not part of a pair. -/
def quoteUnit (u : UInt16) : Text :=
  if u = 8 then [unit '\\', unit 'b']
  else if u = 9 then [unit '\\', unit 't']
  else if u = 10 then [unit '\\', unit 'n']
  else if u = 12 then [unit '\\', unit 'f']
  else if u = 13 then [unit '\\', unit 'r']
  else if u = unit '"' then [unit '\\', unit '"']
  else if u = unit '\\' then [unit '\\', unit '\\']
  else if u < 32 || isHigh u || isLow u then JsonText.hexEscape u
  else [u]

/-- `QuoteJSONString`, without the quotes. -/
def quoteJSONString : Text → Text
  | [] => []
  | [u] => quoteUnit u
  | u :: low :: rest =>
    if isHigh u && isLow low then u :: low :: quoteJSONString rest
    else quoteUnit u ++ quoteJSONString (low :: rest)

theorem written_quoteUnit (u : UInt16) : Written u (quoteUnit u) := by
  unfold quoteUnit
  split_ifs with hb ht hn hf hr hquote hslash hhex
  · exact .escape (by decide) (hb ▸ rfl)
  · exact .escape (by decide) (ht ▸ rfl)
  · exact .escape (by decide) (hn ▸ rfl)
  · exact .escape (by decide) (hf ▸ rfl)
  · exact .escape (by decide) (hr ▸ rfl)
  · exact .escape (by decide) (by rw [hquote]; rfl)
  · exact .escape (by decide) (by rw [hslash]; rfl)
  · exact JsonText.written_hexEscape u
  · simp only [Bool.or_eq_true, decide_eq_true_eq, not_or] at hhex
    exact .plain hquote hhex.1.1 hslash

/-- A unit of a pair is no control character and needs no escape. -/
theorem written_surrogate {u : UInt16} (h : isHigh u = true ∨ isLow u = true) : Written u [u] := by
  have hlarge : 0xD800 ≤ u.toNat := by
    rcases h with h | h <;> simp only [isHigh, isLow, Bool.and_eq_true, decide_eq_true_eq] at h <;>
      omega
  have hne : ∀ w : UInt16, w.toNat < 0xD800 → u ≠ w := by
    rintro w hw rfl
    omega
  refine .plain (hne _ (by decide)) ?_ (hne _ (by decide))
  rw [UInt16.lt_iff_toNat_lt]
  have h32 : (32 : UInt16).toNat = 32 := rfl
  omega

theorem writtenAs_quoteJSONString (t : Text) : WrittenAs t (quoteJSONString t) := by
  induction t using quoteJSONString.induct with
  | case1 => exact .nil
  | case2 u => simpa [quoteJSONString] using WrittenAs.cons (written_quoteUnit u) .nil
  | case3 u low rest hpair ih =>
    rw [quoteJSONString, if_pos hpair]
    rw [Bool.and_eq_true] at hpair
    exact .cons (written_surrogate (.inl hpair.1)) (.cons (written_surrogate (.inr hpair.2)) ih)
  | case4 u low rest hpair ih =>
    rw [quoteJSONString, if_neg hpair]
    exact .cons (written_quoteUnit u) ih

/-! ## `JSON.stringify` -/

/-- A new line, with the spaces that so many levels are indented; nothing without indentation. -/
def lineBreak (indent n : ℕ) : Text :=
  if indent = 0 then [] else unit '\n' :: List.replicate (indent * n) (unit ' ')

theorem blank_lineBreak (indent n : ℕ) : Blank (lineBreak indent n) := by
  unfold lineBreak
  split_ifs
  · exact fun _ hu => absurd hu List.not_mem_nil
  · refine List.forall_mem_cons.mpr ⟨by decide, fun u hu => ?_⟩
    rw [List.eq_of_mem_replicate hu]
    decide

/-- The third argument of `JSON.stringify` is `indent`, at most ten. -/
def jsonStyle (indent : ℕ) : JsonText.Style where
  string := quoteJSONString
  number q _ := decimalText q
  Writes q plain := (q ≠ 0 → Printable |q|) ∧ plain = (q.den = 1 && |q| < 10 ^ 21)
  gap := lineBreak indent
  pad := if indent = 0 then [] else [unit ' ']
  parseString_string t rest := (writtenAs_quoteJSONString t).parseString rest
  head_number h := head_decimalText h.1
  parseNumber_number h hrest := by
    rw [parseNumber_decimalText h.1 hrest, h.2]
  blank_gap := blank_lineBreak indent
  blank_pad := by
    split_ifs
    · exact fun _ hu => absurd hu List.not_mem_nil
    · exact fun u hu => by rw [List.mem_singleton.mp hu]; decide

/-- The text of a value. -/
def stringify (indent : ℕ) (v : Value) : Text := (jsonStyle indent).print v.toDoc

def Number.Precise : Number → Prop
  | .finite x => x.Precise
  | .infinite => True

theorem ofRat_precise (q : Rat) : (Number.ofRat q).Precise := by
  cases h : Number.ofRat q with
  | infinite => exact trivial
  | finite x => exact precise_of_ofRat h

/-- An integer that is not too large is printed with all its digits. -/
theorem prints_int (indent : ℕ) {n : ℤ} (h : |n| < 2 ^ 52) :
    (jsonStyle indent).Prints (.num n true) := by
  obtain ⟨x, hx, hshown⟩ := ofRat_of_small h
  have hprecise := ofRat_precise n
  rw [hx] at hprecise
  have hplain : |(n : Rat)| < 10 ^ 21 := by
    have : |(n : Rat)| < 2 ^ 52 := by exact_mod_cast h
    linarith
  refine ⟨fun hne => hshown ▸ (Binary64.abs_shown hprecise (hshown ▸ hne)).2, ?_⟩
  rw [decide_eq_true (Rat.den_intCast n), decide_eq_true hplain]
  rfl

mutual

/-- All numbers of the value are doubles. -/
def Value.Precise : Value → Prop
  | .num n => n.Precise
  | .arr items => PreciseItems items
  | .obj members => PreciseMembers members
  | .null | .bool _ | .str _ => True

def PreciseItems : List Value → Prop
  | [] => True
  | v :: rest => v.Precise ∧ PreciseItems rest

def PreciseMembers : List (Text × Value) → Prop
  | [] => True
  | (_, v) :: rest => v.Precise ∧ PreciseMembers rest

end

theorem prints_toDoc {n : Number} {indent : ℕ} (h : n.Precise) : (jsonStyle indent).Prints n.toDoc := by
  cases n with
  | infinite => exact trivial
  | finite x => exact ⟨fun hne => (Binary64.abs_shown h hne).2, rfl⟩

mutual

theorem Value.Precise.prints {indent : ℕ} : ∀ {v : Value}, v.Precise →
    (jsonStyle indent).Prints v.toDoc
  | .null, _ => trivial
  | .bool _, _ => trivial
  | .num _, h => prints_toDoc h
  | .str _, _ => trivial
  | .arr _, h => prints_itemDocs h
  | .obj _, h => prints_memberDocs h

theorem prints_itemDocs {indent : ℕ} : ∀ {items : List Value}, PreciseItems items →
    (jsonStyle indent).PrintsItems (itemDocs items)
  | [], _ => trivial
  | _ :: _, h => ⟨h.1.prints, prints_itemDocs h.2⟩

theorem prints_memberDocs {indent : ℕ} : ∀ {members : List (Text × Value)}, PreciseMembers members →
    (jsonStyle indent).PrintsMembers (memberDocs members)
  | [], _ => trivial
  | _ :: _, h => ⟨h.1.prints, prints_memberDocs h.2⟩

end

end Interbellum.Ecma
