import Mathlib.Algebra.Order.Field.Power
import Mathlib.Algebra.Order.Round
import Mathlib.Data.Int.Log
import Mathlib.Data.Rat.Floor
import Mathlib.Tactic.Linarith
import Mathlib.Tactic.NormNum
import Mathlib.Tactic.Positivity
import Mathlib.Tactic.Ring

/-!
# Numbers of an ECMAScript program

A `Binary64` is a finite double, kept as the rational number it stands for; the two zeros are
one. `Number.ofRat` rounds to the nearest double, to the even one of two, and `Binary64.shown`
is the value of the decimal that the double is printed as, the closest of those with the fewest
digits.

* `nearest_of_grid`: rounding leaves a double as it is.
* `shown_of_int`: a small integer is printed as it is.
* `not_small_of_shown`: no other number is printed as a small integer.
-/

namespace Interbellum.Ecma

/-- The nearest integer, the even one of two. -/
def roundEven (q : Rat) : ℤ :=
  if Int.fract q < 1 / 2 then ⌊q⌋
  else if 1 / 2 < Int.fract q then ⌊q⌋ + 1
  else if Even ⌊q⌋ then ⌊q⌋ else ⌊q⌋ + 1

/-- The exponent of the last of the 53 bits. -/
def lastBit (q : Rat) : ℤ := max (Int.log 2 |q| - 52) (-1074)

def nearest (q : Rat) : Rat := roundEven (q / 2 ^ lastBit q) * 2 ^ lastBit q

structure Binary64 where
  value : Rat
  grid : ∃ m e : ℤ, value = m * 2 ^ e ∧ -1074 ≤ e
  finite : |value| < 2 ^ 1024

inductive Number where
  | finite (x : Binary64)
  /-- of either sign -/
  | infinite

def Number.ofRat (q : Rat) : Number :=
  if h : |nearest q| < 2 ^ 1024 then .finite ⟨nearest q, ⟨_, _, rfl, le_max_right _ _⟩, h⟩
  else .infinite

/-! ## Rounding to an integer -/

theorem roundEven_int (m : ℤ) : roundEven m = m := by simp [roundEven]

theorem floor_le_roundEven (q : Rat) : ⌊q⌋ ≤ roundEven q := by
  unfold roundEven
  split_ifs <;> omega

theorem le_roundEven {q : Rat} {m : ℤ} (h : m ≤ q) : m ≤ roundEven q :=
  (Int.le_floor.mpr h).trans (floor_le_roundEven q)

/-- From the middle on, the next even integer is taken. -/
theorem le_roundEven_of_half {q : Rat} {m : ℤ} (hm : Even m) (h : m - 1 / 2 ≤ q) :
    m ≤ roundEven q := by
  have hfloor : m - 1 ≤ ⌊q⌋ := Int.le_floor.mpr (by push_cast; linarith)
  rcases hfloor.lt_or_eq with hlt | heq
  · exact le_trans (by omega) (floor_le_roundEven q)
  · have hfract : 1 / 2 ≤ Int.fract q := by
      rw [Int.fract, ← heq]
      push_cast
      linarith
    have hodd : ¬ Even ⌊q⌋ := by
      rw [← heq, Int.even_sub_one, not_not]
      exact hm
    unfold roundEven
    rw [if_neg (not_lt.mpr hfract), if_neg hodd]
    split_ifs <;> omega

/-- Before the middle, no integer above it is taken. -/
theorem roundEven_lt_of_half {q : Rat} {m : ℤ} (h : q < m - 1 / 2) : roundEven q < m := by
  have hfloor : ⌊q⌋ ≤ m - 1 := Int.le_of_lt_add_one
    (Int.floor_lt.mpr (by push_cast; linarith))
  rcases hfloor.lt_or_eq with hlt | heq
  · unfold roundEven
    split_ifs <;> omega
  · have hfract : Int.fract q < 1 / 2 := by
      rw [Int.fract, heq]
      push_cast
      linarith
    rw [roundEven, if_pos hfract]
    omega

theorem roundEven_neg (q : Rat) : roundEven (-q) = -roundEven q := by
  by_cases hq : Int.fract q = 0
  · obtain ⟨m, rfl⟩ : ∃ m : ℤ, (m : Rat) = q := ⟨⌊q⌋, by rw [← Int.self_sub_floor] at hq; linarith⟩
    rw [roundEven_int, ← Int.cast_neg, roundEven_int]
  · have hfract : Int.fract (-q) = 1 - Int.fract q := Int.fract_neg hq
    have hfloor : ⌊-q⌋ = -⌊q⌋ - 1 := by
      have h : (⌊-q⌋ : Rat) = -⌊q⌋ - 1 := by
        rw [Int.fract, Int.fract] at hfract
        linarith
      exact_mod_cast h
    have heven : Even (-⌊q⌋ - 1) ↔ ¬ Even ⌊q⌋ := by
      rw [Int.even_sub_one, even_neg]
    unfold roundEven
    rw [hfract, hfloor]
    simp only [heven]
    split_ifs <;> first | omega | (exfalso; linarith)

/-! ## Rounding to a double -/

theorem lastBit_neg (q : Rat) : lastBit (-q) = lastBit q := by rw [lastBit, abs_neg, lastBit]

theorem nearest_neg (q : Rat) : nearest (-q) = -nearest q := by
  rw [nearest, lastBit_neg, neg_div, roundEven_neg, nearest]
  push_cast
  ring

/-- A power of two that is no smaller than the last bit is a multiple of it. -/
theorem zpow_eq_mul {i j : ℤ} (h : i ≤ j) : (2 : Rat) ^ j = ((2 : ℤ) ^ (j - i).toNat : ℤ) * 2 ^ i := by
  have hj : j = (j - i).toNat + i := by omega
  conv_lhs => rw [hj, zpow_add₀ two_ne_zero, zpow_natCast]
  push_cast
  rfl

theorem log_lt_of_lt {q : Rat} {j : ℤ} (hq : 0 < q) (h : q < 2 ^ j) : Int.log 2 q < j :=
  (Int.lt_zpow_iff_log_lt (b := 2) one_lt_two hq).mp (by exact_mod_cast h)

theorem le_log_of_le {q : Rat} {j : ℤ} (hq : 0 < q) (h : 2 ^ j ≤ q) : j ≤ Int.log 2 q :=
  (Int.zpow_le_iff_le_log (b := 2) one_lt_two hq).mp (by exact_mod_cast h)

/-- Rounding leaves a double as it is. -/
theorem nearest_of_grid {m e : ℤ} (hm : |m| < 2 ^ 53) (he : -1074 ≤ e) :
    nearest (m * 2 ^ e) = m * 2 ^ e := by
  obtain rfl | hne := eq_or_ne m 0
  · simp [nearest, roundEven]
  have hbit : lastBit (m * 2 ^ e) ≤ e := by
    refine max_le ?_ he
    have hpos : 0 < |(m : Rat) * 2 ^ e| := by positivity
    have hlt : |(m : Rat) * 2 ^ e| < 2 ^ (53 + e) := by
      rw [abs_mul, abs_of_pos (a := (2 : Rat) ^ e) (by positivity), zpow_add₀ two_ne_zero]
      refine mul_lt_mul_of_pos_right ?_ (by positivity)
      exact_mod_cast hm
    have := log_lt_of_lt hpos hlt
    omega
  rw [nearest]
  generalize lastBit (m * 2 ^ e) = b at hbit ⊢
  have hdiv : (m : Rat) * 2 ^ e / 2 ^ b = (m * 2 ^ (e - b).toNat : ℤ) := by
    rw [zpow_eq_mul hbit]
    push_cast
    field_simp
  rw [hdiv, roundEven_int, ← hdiv, div_mul_cancel₀]
  positivity

theorem nearest_int {n : ℤ} (h : |n| < 2 ^ 53) : nearest n = n := by
  simpa using nearest_of_grid (e := 0) h (by norm_num)

/-- Rounding does not pass a power of two. -/
theorem le_nearest {q : Rat} {k : ℤ} (hk : -1074 ≤ k) (h : 2 ^ k ≤ q) : 2 ^ k ≤ nearest q := by
  have hq : 0 < q := lt_of_lt_of_le (by positivity) h
  have hlog : k ≤ Int.log 2 q := le_log_of_le hq h
  have hbit : lastBit q ≤ Int.log 2 q := by
    rw [lastBit, abs_of_pos hq]
    omega
  have hpow : (2 : Rat) ^ Int.log 2 q ≤ q := by exact_mod_cast Int.zpow_log_le_self one_lt_two hq
  rw [zpow_eq_mul hbit, ← le_div_iff₀ (by positivity)] at hpow
  calc (2 : Rat) ^ k ≤ 2 ^ Int.log 2 q := zpow_le_zpow_right₀ one_le_two hlog
    _ ≤ nearest q := by
      rw [zpow_eq_mul hbit, nearest]
      refine mul_le_mul_of_nonneg_right ?_ (by positivity)
      exact_mod_cast le_roundEven hpow

/-- A power of two is reached from the middle between it and the double before it on. -/
theorem zpow_le_nearest_iff {q : Rat} {k : ℤ} (hk : -1075 ≤ k) (hq : 0 < q) :
    2 ^ (k + 54) ≤ nearest q ↔ 2 ^ (k + 54) - 2 ^ k ≤ q := by
  have hpos : (0 : Rat) < 2 ^ k := by positivity
  have hbit : lastBit q = max (Int.log 2 q - 52) (-1074) := by rw [lastBit, abs_of_pos hq]
  have hlast : (2 : Rat) ^ (k + 1) = 2 ^ k * 2 := zpow_add_one₀ two_ne_zero k
  constructor
  · intro h
    by_contra hlt
    have hlog : Int.log 2 q < k + 54 := log_lt_of_lt hq (by linarith)
    have hle : lastBit q ≤ k + 1 := by omega
    have hpow := zpow_eq_mul (i := lastBit q) (j := k + 54) (by omega)
    have hround : roundEven (q / 2 ^ lastBit q) < 2 ^ (k + 54 - lastBit q).toNat := by
      apply roundEven_lt_of_half
      rw [div_lt_iff₀ (by positivity), sub_mul, ← hpow]
      have := zpow_le_zpow_right₀ (one_le_two (α := Rat)) hle
      linarith
    rw [nearest, hpow, mul_le_mul_iff_of_pos_right (by positivity), Int.cast_le] at h
    omega
  · intro h
    rcases le_or_gt (2 ^ (k + 54)) q with hle | hlt
    · exact le_nearest (by omega) hle
    · have hhalf : (2 : Rat) ^ (k + 54) = 2 ^ (k + 53) * 2 := by
        rw [← zpow_add_one₀ two_ne_zero, add_assoc]
        rfl
      have hstep : (2 : Rat) ^ k ≤ 2 ^ (k + 53) := zpow_le_zpow_right₀ one_le_two (by omega)
      have hlog : Int.log 2 q < k + 54 := log_lt_of_lt hq hlt
      have hlog' : k + 53 ≤ Int.log 2 q := le_log_of_le hq (by linarith)
      have hlastBit : lastBit q = k + 1 := by omega
      have hpow := zpow_eq_mul (i := k + 1) (j := k + 54) (by omega)
      have heven : Even ((2 : ℤ) ^ (k + 54 - (k + 1)).toNat) :=
        Even.pow_of_ne_zero even_two (by omega)
      have hround : 2 ^ (k + 54 - (k + 1)).toNat ≤ roundEven (q / 2 ^ (k + 1)) := by
        apply le_roundEven_of_half heven
        rw [le_div_iff₀ (by positivity), sub_mul, ← hpow]
        linarith
      rw [nearest, hlastBit, hpow, mul_le_mul_iff_of_pos_right (by positivity), Int.cast_le]
      exact hround

/-! ## Printing -/

/-- Of the decimals with `k` digits around the positive `q`, the closest that rounds to it. -/
def shownWith (q : Rat) (k : ℕ) : Option Rat :=
  let unit : Rat := 10 ^ (Int.log 10 q + 1 - k)
  let below := ⌊q / unit⌋ * unit
  let above := (⌊q / unit⌋ + 1) * unit
  if nearest below = q then
    if nearest above = q ∧ roundEven (q / unit) ≠ ⌊q / unit⌋ then some above else some below
  else if nearest above = q then some above
  else none

/-- Seventeen digits are enough for every double. -/
def shortest (q : Rat) : Rat := ((List.range' 1 17).findSome? (shownWith q)).getD q

def Binary64.shown (x : Binary64) : Rat :=
  if x.value = 0 then 0 else if x.value < 0 then -shortest (-x.value) else shortest x.value


/-- A candidate is a multiple of its last digit next to the number, and rounds to it. -/
theorem shownWith_eq_some {q c : Rat} {k : ℕ} (h : shownWith q k = some c) :
    nearest c = q ∧ ∃ s : ℤ, (s = ⌊q / 10 ^ (Int.log 10 q + 1 - k)⌋ ∨
      s = ⌊q / 10 ^ (Int.log 10 q + 1 - k)⌋ + 1) ∧ c = s * 10 ^ (Int.log 10 q + 1 - k) := by
  unfold shownWith at h
  dsimp only at h
  split_ifs at h with hbelow hboth habove <;> obtain rfl := Option.some.inj h
  · exact ⟨hboth.1, _, .inr rfl, by push_cast; rfl⟩
  · exact ⟨hbelow, _, .inl rfl, rfl⟩
  · exact ⟨habove, _, .inr rfl, by push_cast; rfl⟩

theorem shortest_spec (q : Rat) :
    shortest q = q ∨ ∃ k, 1 ≤ k ∧ k ≤ 17 ∧ shownWith q k = some (shortest q) := by
  unfold shortest
  cases h : (List.range' 1 17).findSome? (shownWith q) with
  | none => exact .inl rfl
  | some c =>
    obtain ⟨k, hk, hc⟩ := List.exists_of_findSome?_eq_some h
    obtain ⟨hmin, hmax⟩ := List.mem_range'_1.mp hk
    exact .inr ⟨k, hmin, by omega, hc⟩

theorem unit_le {q : Rat} {k : ℕ} (hq : 0 < q) (hk : 1 ≤ k) :
    (10 : Rat) ^ (Int.log 10 q + 1 - k) ≤ q := by
  have hlog : (10 : Rat) ^ Int.log 10 q ≤ q := by
    exact_mod_cast Int.zpow_log_le_self (b := 10) (by norm_num) hq
  exact le_trans (zpow_le_zpow_right₀ (by norm_num) (by omega)) hlog

theorem shortest_bounds {q : Rat} (hq : 0 < q) : 0 ≤ shortest q ∧ shortest q ≤ 2 * q := by
  rcases shortest_spec q with heq | ⟨k, hk, -, hc⟩
  · rw [heq]
    constructor <;> linarith
  · obtain ⟨-, s, hs, hshown⟩ := shownWith_eq_some hc
    have hunit := unit_le hq hk
    have hpos : (0 : Rat) < 10 ^ (Int.log 10 q + 1 - k) := by positivity
    rw [hshown]
    generalize (10 : Rat) ^ (Int.log 10 q + 1 - k) = unit at hs hunit hpos ⊢
    have hfloor : 0 ≤ ⌊q / unit⌋ := Int.floor_nonneg.mpr (div_nonneg hq.le hpos.le)
    have hs0 : (0 : Rat) ≤ s := by exact_mod_cast (show 0 ≤ s by omega)
    have hs1 : (s : Rat) ≤ q / unit + 1 := by
      have hle : (s : Rat) ≤ ⌊q / unit⌋ + 1 := by exact_mod_cast (show s ≤ ⌊q / unit⌋ + 1 by omega)
      exact hle.trans (by linarith [Int.floor_le (q / unit)])
    refine ⟨mul_nonneg hs0 hpos.le, ?_⟩
    calc s * unit ≤ (q / unit + 1) * unit := mul_le_mul_of_nonneg_right hs1 hpos.le
      _ = q + unit := by rw [add_mul, div_mul_cancel₀ _ hpos.ne', one_mul]
      _ ≤ 2 * q := by linarith

/-- Small integers, and no other numbers, are printed as small integers. -/
theorem shortest_eq_int {q : Rat} (hq : 0 < q) {m : ℤ} (hm : |m| < 2 ^ 52) :
    shortest q = m ↔ q = m := by
  have hm' : |m| < 2 ^ 53 := hm.trans (by norm_num)
  constructor
  · intro h
    rcases shortest_spec q with heq | ⟨k, -, -, hc⟩
    · rw [← heq, h]
    · rw [h] at hc
      rw [← (shownWith_eq_some hc).1, nearest_int hm']
  · rintro rfl
    rcases shortest_spec m with heq | ⟨k, hk, -, hc⟩
    · exact heq
    obtain ⟨hnearest, s, hs, hshown⟩ := shownWith_eq_some hc
    rcases le_or_gt 0 (Int.log 10 (m : Rat) + 1 - k) with hj | hj
    · obtain ⟨j, hj⟩ := Int.eq_ofNat_of_zero_le hj
      have hint : shortest m = (s * 10 ^ j : ℤ) := by
        rw [hshown, hj]
        push_cast
        rfl
      have hbounds := shortest_bounds hq
      rw [hint] at hnearest hbounds ⊢
      rw [← hnearest, nearest_int]
      have h2 : s * 10 ^ j ≤ 2 * m := by exact_mod_cast hbounds.2
      have h0 : 0 ≤ s * 10 ^ j := by exact_mod_cast hbounds.1
      rw [abs_of_nonneg h0]
      have := (abs_lt.mp hm).2
      omega
    · obtain ⟨j, hj⟩ := Int.eq_ofNat_of_zero_le (a := -(Int.log 10 (m : Rat) + 1 - k)) (by omega)
      have hdiv : (m : Rat) / 10 ^ (Int.log 10 (m : Rat) + 1 - k) = (m * 10 ^ j : ℤ) := by
        rw [← neg_neg (Int.log 10 (m : Rat) + 1 - k), hj, zpow_neg, div_inv_eq_mul]
        push_cast
        rfl
      unfold shownWith at hc
      dsimp only at hc
      rw [hdiv, Int.floor_intCast, ← hdiv, div_mul_cancel₀ _ (by positivity), nearest_int hm',
        if_pos rfl, hdiv, roundEven_int, if_neg (by simp)] at hc
      exact (Option.some.inj hc).symm

/-- Doubles have no more than 1100 digits after the point, and are printed with no more. -/
theorem shortest_digits {q : Rat} (hq : 0 < q) (hgrid : ∃ m e : ℤ, q = m * 2 ^ e ∧ -1074 ≤ e) :
    ∃ m : ℤ, shortest q * 10 ^ 1100 = m := by
  obtain ⟨m, e, hm, he⟩ := hgrid
  rcases shortest_spec q with heq | ⟨k, hk, hk17, hc⟩
  · obtain ⟨a, ha⟩ := Int.eq_ofNat_of_zero_le (a := e + 1074) (by omega)
    have hten : (10 : Rat) ^ 1100 = 2 ^ (1074 : ℤ) * (5 ^ 1074 * 10 ^ 26) := by
      rw [show (1100 : ℕ) = 1074 + 26 by rfl, pow_add, show (10 : Rat) = 2 * 5 by norm_num, mul_pow,
        mul_assoc]
      rfl
    refine ⟨m * 2 ^ a * (5 ^ 1074 * 10 ^ 26), ?_⟩
    rw [heq, hm, hten, ← mul_assoc, mul_assoc (m : Rat), ← zpow_add₀ two_ne_zero, ha]
    simp only [Int.cast_mul, Int.cast_pow, Int.cast_ofNat]
    rfl
  · obtain ⟨-, s, -, hs⟩ := shownWith_eq_some hc
    have hmpos : 1 ≤ m := by
      by_contra hneg
      have : (m : Rat) ≤ 0 := by exact_mod_cast (show m ≤ 0 by omega)
      have := mul_nonpos_of_nonpos_of_nonneg this (zpow_nonneg (zero_le_two (α := Rat)) e)
      linarith
    have hlog : -1074 ≤ Int.log 10 q := by
      have hinv : ∀ j : ℕ, ((10 : ℕ) : Rat) ^ (-(j : ℤ)) ≤ 2 ^ (-(j : ℤ)) := by
        intro j
        rw [zpow_neg, zpow_neg]
        exact inv_anti₀ (by positivity) (pow_le_pow_left₀ zero_le_two (by norm_num) j)
      apply (Int.zpow_le_iff_le_log (b := 10) (by norm_num) hq).mp
      calc ((10 : ℕ) : Rat) ^ (-1074 : ℤ) ≤ 2 ^ (-1074 : ℤ) := hinv 1074
        _ ≤ 2 ^ e := zpow_le_zpow_right₀ one_le_two he
        _ ≤ m * 2 ^ e := le_mul_of_one_le_left (by positivity) (by exact_mod_cast hmpos)
        _ = q := hm.symm
    obtain ⟨a, ha⟩ := Int.eq_ofNat_of_zero_le (a := Int.log 10 q + 1 - k + 1100) (by omega)
    refine ⟨s * 10 ^ a, ?_⟩
    rw [hs, mul_assoc, ← zpow_natCast, ← zpow_add₀ (by norm_num)]
    rw [show Int.log 10 q + 1 - k + (1100 : ℕ) = a from ha]
    push_cast
    rfl

namespace Binary64

theorem shown_neg_or (x : Binary64) : x.value = 0 ∧ x.shown = 0 ∨
    ∃ q : Rat, 0 < q ∧ (x.value = q ∧ x.shown = shortest q ∨
      x.value = -q ∧ x.shown = -shortest q) := by
  rcases lt_trichotomy x.value 0 with hneg | hzero | hpos
  · refine .inr ⟨-x.value, neg_pos.mpr hneg, .inr ⟨(neg_neg _).symm, ?_⟩⟩
    rw [shown, if_neg hneg.ne, if_pos hneg]
  · exact .inl ⟨hzero, by rw [shown, if_pos hzero]⟩
  · refine .inr ⟨x.value, hpos, .inl ⟨rfl, ?_⟩⟩
    rw [shown, if_neg hpos.ne', if_neg (not_lt.mpr hpos.le)]

theorem shown_eq_int (x : Binary64) {m : ℤ} (hm : |m| < 2 ^ 52) : x.shown = m ↔ x.value = m := by
  rcases x.shown_neg_or with ⟨hvalue, hshown⟩ | ⟨q, hq, ⟨hvalue, hshown⟩ | ⟨hvalue, hshown⟩⟩
  · rw [hvalue, hshown]
  · rw [hvalue, hshown, shortest_eq_int hq hm]
  · rw [hvalue, hshown, neg_eq_iff_eq_neg, neg_eq_iff_eq_neg, ← Int.cast_neg,
      shortest_eq_int hq (by rwa [abs_neg])]

theorem abs_shown_le (x : Binary64) : |x.shown| ≤ 2 * |x.value| := by
  rcases x.shown_neg_or with ⟨hvalue, hshown⟩ | ⟨q, hq, h⟩
  · rw [hvalue, hshown]
    simp
  · obtain ⟨h0, h2⟩ := shortest_bounds hq
    rcases h with ⟨hvalue, hshown⟩ | ⟨hvalue, hshown⟩
    · rwa [hvalue, hshown, abs_of_nonneg h0, abs_of_pos hq]
    · rwa [hvalue, hshown, abs_neg, abs_neg, abs_of_nonneg h0, abs_of_pos hq]

theorem shown_digits (x : Binary64) : ∃ m : ℤ, x.shown * 10 ^ 1100 = m := by
  rcases x.shown_neg_or with ⟨-, hshown⟩ | ⟨q, hq, ⟨hvalue, hshown⟩ | ⟨hvalue, hshown⟩⟩
  · exact ⟨0, by rw [hshown, zero_mul, Int.cast_zero]⟩
  · rw [hshown]
    exact shortest_digits hq (hvalue ▸ x.grid)
  · obtain ⟨m, e, hm, he⟩ := x.grid
    have hgrid : q = (-m : ℤ) * 2 ^ e := by
      rw [Int.cast_neg, neg_mul, ← hm, hvalue, neg_neg]
    obtain ⟨m', hm'⟩ := shortest_digits hq ⟨-m, e, hgrid, he⟩
    exact ⟨-m', by rw [hshown, neg_mul, hm', Int.cast_neg]⟩

end Binary64

/-! ## Integers -/

theorem abs_nearest (q : Rat) : |nearest q| = nearest |q| := by
  have hnonneg : ∀ p : Rat, 0 ≤ p → 0 ≤ nearest p := by
    intro p hp
    have h : (0 : ℤ) ≤ roundEven (p / 2 ^ lastBit p) :=
      le_roundEven (by rw [Int.cast_zero]; positivity)
    exact mul_nonneg (by exact_mod_cast h) (by positivity)
  rcases le_total 0 q with hq | hq
  · rw [abs_of_nonneg hq, abs_of_nonneg (hnonneg q hq)]
  · rw [abs_of_nonpos hq, ← abs_neg, ← nearest_neg,
      abs_of_nonneg (hnonneg _ (neg_nonneg.mpr hq))]

theorem nearest_eq_int {n m : ℤ} (hm : |m| < 2 ^ 52) : nearest n = m ↔ n = m := by
  have hm' : |m| < 2 ^ 53 := hm.trans (by norm_num)
  constructor
  · intro h
    rcases lt_or_ge |n| (2 ^ 53) with hn | hn
    · rw [nearest_int hn] at h
      exact_mod_cast h
    · have hle : (2 : Rat) ^ (53 : ℤ) ≤ nearest |(n : Rat)| :=
        le_nearest (by norm_num) (by exact_mod_cast hn)
      rw [← abs_nearest, h] at hle
      have : (2 : ℤ) ^ 53 ≤ |m| := by exact_mod_cast hle
      omega
  · rintro rfl
    exact nearest_int hm'

/-- The double of an integer is printed as a small integer when that is the integer itself. -/
theorem shown_ofRat_int {n m : ℤ} {x : Binary64} (hx : Number.ofRat n = .finite x)
    (hm : |m| < 2 ^ 52) : x.shown = m ↔ n = m := by
  have hvalue : x.value = nearest n := by
    unfold Number.ofRat at hx
    split_ifs at hx
    rw [← Number.finite.inj hx]
  rw [x.shown_eq_int hm, hvalue, nearest_eq_int hm]

theorem ofRat_int_infinite {n : ℤ} :
    Number.ofRat n = .infinite ↔ 2 ^ 1024 - 2 ^ 970 ≤ |n| := by
  have hiff : Number.ofRat n = .infinite ↔ 2 ^ (970 + 54 : ℤ) ≤ nearest |(n : Rat)| := by
    unfold Number.ofRat
    rw [← abs_nearest]
    split_ifs with h
    · exact ⟨nofun, fun hle => absurd h (not_lt.mpr hle)⟩
    · exact ⟨fun _ => not_lt.mp h, fun _ => rfl⟩
  obtain rfl | hne := eq_or_ne n 0
  · rw [hiff, Int.cast_zero, abs_zero]
    have hzero : nearest 0 = 0 := by simpa using nearest_int (n := 0) (by norm_num)
    rw [hzero]
    constructor
    · intro h
      exact absurd h (not_le.mpr (by positivity))
    · intro h
      rw [abs_zero] at h
      have : (2 : ℤ) ^ 970 < 2 ^ 1024 := pow_lt_pow_right₀ (by norm_num) (by norm_num)
      omega
  · have hpos : (0 : Rat) < |(n : Rat)| := abs_pos.mpr (Int.cast_ne_zero.mpr hne)
    rw [hiff, zpow_le_nearest_iff (by norm_num) hpos, ← Int.cast_le (R := Rat), Int.cast_sub,
      Int.cast_pow, Int.cast_pow, Int.cast_abs]
    rfl

/-- A small integer is a finite number and shown as it is. -/
theorem ofRat_of_small {n : ℤ} (hsmall : |n| < 2 ^ 52) :
    ∃ x, Number.ofRat n = .finite x ∧ x.shown = n := by
  cases hx : Number.ofRat n with
  | infinite =>
    have hlarge := ofRat_int_infinite.mp hx
    have hpow : (2 : ℤ) ^ 971 ≤ 2 ^ 1024 := pow_le_pow_right₀ (by norm_num) (by norm_num)
    have hpow' : (2 : ℤ) ^ 52 ≤ 2 ^ 970 := pow_le_pow_right₀ (by norm_num) (by norm_num)
    rw [pow_succ'] at hpow
    omega
  | finite x => exact ⟨x, rfl, (shown_ofRat_int hx hsmall).mpr rfl⟩

end Interbellum.Ecma
