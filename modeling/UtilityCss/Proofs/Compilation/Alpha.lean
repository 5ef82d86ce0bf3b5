import Mathlib.Algebra.Order.Field.Power
import UtilityCss.Alpha
import UtilityCss.Proofs.Decimal.Binary64
import UtilityCss.Proofs.Decimal.Numeral

/-!
# Percentages in steps of a quarter

A named modifier that is no variable is a percentage up to 100, in steps of a quarter. The steps
are not compared with the numeral itself but with the number that it is rounded to, as opposed to
the multiples of a quarter that spaces are measured in (`Numeral.isQuarters_iff`). So a numeral is
accepted if it is close to a step, and with many places it need not be one.

* `isAlphaStep_iff`: a numeral is accepted if a step is at most half a gap between floating-point
  numbers away;
* `Numeral.IsStep.isNearStep`: each step is accepted;
* `Numeral.IsNearStep.isStep`: with up to 14 places, nothing else is;
* `Modifier.alpha?_named`: the alpha of a named modifier;
* `Modifier.alpha?_of_rounded`: with 15 places, a numeral above 100 is accepted.
-/

namespace UtilityCss

namespace Numeral

/-- The numeral denotes a percentage up to 100, in steps of a quarter. -/
def IsStep (n : Numeral) : Prop :=
  n.value ≤ 100 ∧ (4 * n.value).isInt = true

instance (n : Numeral) : Decidable n.IsStep :=
  inferInstanceAs (Decidable (n.value ≤ 100 ∧ (4 * n.value).isInt = true))

/-- There is a step at most half a gap between floating-point numbers away. -/
def IsNearStep (n : Numeral) : Prop :=
  ∃ k : ℕ, k ≤ 400 ∧ |n.value - k / 4| ≤ Binary64.gap n.value / 2

variable {n : Numeral}

theorem isStep_iff : n.IsStep ↔ ∃ k : ℕ, k ≤ 400 ∧ n.value = k / 4 := by
  constructor
  · rintro ⟨hle, hinteger⟩
    have hden : (4 * n.value).den = 1 := by simpa [Rat.isInt] using hinteger
    have hnum : 0 ≤ (4 * n.value).num := Rat.num_nonneg.2 (mul_nonneg (by decide) n.value_nonneg)
    obtain ⟨k, hk⟩ := Int.eq_ofNat_of_zero_le hnum
    have hvalue := Rat.coe_int_num_of_den_eq_one hden
    rw [hk, Int.cast_natCast] at hvalue
    have hle' : (k : ℚ) ≤ 400 := by linarith
    exact ⟨k, by exact_mod_cast hle', by linarith⟩
  · rintro ⟨k, hk, hvalue⟩
    have hk' : (k : ℚ) ≤ 400 := by exact_mod_cast hk
    have hfour : 4 * n.value = k := by rw [hvalue]; ring
    refine ⟨by linarith, ?_⟩
    rw [hfour, Rat.isInt, Rat.den_natCast]
    rfl

/-- A step is near to itself. -/
theorem IsStep.isNearStep (h : n.IsStep) : n.IsNearStep := by
  obtain ⟨k, hk, hvalue⟩ := isStep_iff.1 h
  refine ⟨k, hk, ?_⟩
  rw [hvalue, sub_self, abs_zero]
  exact div_nonneg (Binary64.gap_pos _).le (by decide)

/-- Near to a step, the gaps are smaller than the last of 14 places. -/
theorem IsNearStep.gap_le (h : n.IsNearStep) : Binary64.gap n.value ≤ 2 ^ (6 - 52 : ℤ) := by
  obtain ⟨k, hk, hnear⟩ := h
  have hk' : (k : ℚ) ≤ 400 := by exact_mod_cast hk
  have hvalue := (abs_le.1 hnear).2
  have hlt : n.value < 2 ^ (6 + 1 : ℤ) := by
    by_contra hlarge
    have hlarge' : (2 : ℚ) ^ (7 : ℤ) ≤ n.value := not_lt.1 hlarge
    have hnormal : (2 : ℚ) ^ (-1022 : ℤ) ≤ n.value :=
      (zpow_le_zpow_right₀ (by decide) (by decide)).trans hlarge'
    have hgap := Binary64.gap_le_mul hnormal
    norm_num at hlarge' hgap
    linarith
  exact Binary64.gap_le_of_lt (e := 6) (by decide) hlt

/-- With up to 14 places, there is nothing else near to a step. -/
theorem IsNearStep.isStep (h : n.IsNearStep) (hplaces : n.places.length ≤ 14) : n.IsStep := by
  have hgap := h.gap_le
  obtain ⟨k, hk, hnear⟩ := h
  refine isStep_iff.2 ⟨k, hk, ?_⟩
  -- In units of the last of 14 places, both are integers, and less than one apart.
  obtain ⟨p, hp⟩ := Nat.exists_eq_add_of_le hplaces
  have hscaled : 10 ^ 14 * (n.value - k / 4) =
      (((n.digits * 10 ^ p : ℕ) - (25 * 10 ^ 12 * k : ℕ) : ℤ) : ℚ) := by
    have hvalue : 10 ^ 14 * n.value = n.digits * 10 ^ p := by
      have hscale : (n.scale : ℚ) = 10 ^ n.places.length := Nat.cast_pow 10 _
      rw [value, hscale, hp, pow_add]
      field_simp
    push_cast
    rw [← hvalue]
    ring
  have hlt : |10 ^ 14 * (n.value - k / 4)| < 1 := by
    rw [abs_mul, abs_of_pos (by norm_num : (0 : ℚ) < 10 ^ 14)]
    norm_num at hgap ⊢
    linarith
  rw [hscaled, ← Int.cast_abs, ← Int.cast_one, Int.cast_lt, Int.abs_lt_one_iff] at hlt
  rw [hlt, Int.cast_zero] at hscaled
  linarith

/-- A quarter in units is a power of two, the exponent of which is a variable as in
    `Binary64.one_eq`. -/
theorem one_eq_quarters {e : ℕ} (he : 1071 = e) : Binary64.one = 4 * 2 ^ (e + 1) := by
  rw [Binary64.one_eq (show 1074 = e + 3 by omega)]
  ring

/-- A numeral is rounded to so many quarters. -/
theorem toBinary64?_eq_some_iff {k e : ℕ} (hk : k ≤ 400) (he : 1071 = e) :
    n.toBinary64? = some ⟨k * 2 ^ (e + 1)⟩ ↔ |n.value - k / 4| ≤ Binary64.gap n.value / 2 := by
  have hstep : ((k * 2 ^ (e + 1) : ℕ) : ℚ) / Binary64.one = k / 4 := by
    rw [one_eq_quarters he]
    push_cast
    field_simp
  rw [toBinary64?, Binary64.round?_eq_some_iff n.scale_pos (by omega) (by omega), hstep]
  rfl

end Numeral

/-- A numeral is rounded to a step if there is one at most half a gap away. -/
theorem isAlphaStep_iff (n : Numeral) : isAlphaStep n = true ↔ n.IsNearStep := by
  obtain ⟨e, he⟩ : ∃ e : ℕ, 1071 = e := ⟨_, rfl⟩
  have hpos : 0 < 2 ^ (e + 1) := Nat.two_pow_pos _
  simp only [isAlphaStep, Option.any_eq_true, Bool.and_eq_true, decide_eq_true_eq,
    Numeral.one_eq_quarters he]
  constructor
  · rintro ⟨⟨units⟩, hx, hle, hmod⟩
    obtain ⟨k, rfl⟩ : 2 ^ (e + 1) ∣ units :=
      Nat.dvd_of_mul_dvd_mul_left (by decide) (Nat.dvd_of_mod_eq_zero hmod)
    rw [← Nat.mul_assoc, Nat.mul_comm _ k] at hle
    have hk : k ≤ 400 := Nat.le_of_mul_le_mul_right hle hpos
    rw [Nat.mul_comm] at hx
    exact ⟨k, hk, (Numeral.toBinary64?_eq_some_iff hk he).1 hx⟩
  · rintro ⟨k, hk, hnear⟩
    refine ⟨_, (Numeral.toBinary64?_eq_some_iff hk he).2 hnear, ?_, ?_⟩
    · rw [← Nat.mul_assoc]
      exact Nat.mul_le_mul_right _ hk
    · rw [Nat.mul_left_comm]
      exact Nat.mul_mod_left _ _

namespace Modifier

variable {t : Theme} {m : Text}

/-- Without a variable, a modifier is accepted if it is a numeral near to a step. Each step is; with
    up to 14 places, nothing else is. -/
theorem alpha?_named (hm : m.IsPlain)
    (hopacity : t.get? (Theme.variableName "--opacity" m) = none) :
    (∀ alpha, alpha? t (.named m) = some alpha ↔
      alpha = m ++ ['%'] ∧ ∃ n : Numeral, n.SpelledBy m ∧ n.IsNearStep) ∧
    ∀ n : Numeral, n.SpelledBy m →
      (n.IsStep → alpha? t (.named m) = some (m ++ ['%'])) ∧
      (n.places.length ≤ 14 → ¬ n.IsStep → alpha? t (.named m) = none) := by
  have hread (n : Numeral) : Numeral.ofText? m = some n ↔ n.SpelledBy m :=
    Numeral.ofText?_eq_some_iff hm
  have hsome (alpha : Text) : alpha? t (.named m) = some alpha ↔
      alpha = m ++ ['%'] ∧ ∃ n : Numeral, n.SpelledBy m ∧ n.IsNearStep := by
    rw [alpha?, hopacity]
    simp only [Option.ite_none_right_eq_some, Option.any_eq_true, Option.some.injEq, hread,
      isAlphaStep_iff]
    rw [and_comm, eq_comm]
  refine ⟨hsome, fun n hn => ⟨fun hstep => ?_, fun hplaces hstep => ?_⟩⟩
  · exact (hsome _).2 ⟨rfl, n, hn, hstep.isNearStep⟩
  · refine Option.eq_none_iff_forall_ne_some.2 fun alpha halpha => ?_
    obtain ⟨-, n', hn', hnear⟩ := (hsome alpha).1 halpha
    obtain rfl : n = n' := Option.some.inj (((hread n).2 hn).symm.trans ((hread n').2 hn'))
    exact hstep (hnear.isStep hplaces)

/-- 99.75 is a step, and 99.76 is none. -/
theorem alpha?_named_of_quarters :
    let theme : Theme := ⟨.ofList [("--opacity-half", "50%")]⟩
    Text.IsPlain "99.75" ∧ Text.IsPlain "99.76" ∧
      theme.get? (Theme.variableName "--opacity" "99.75") = none ∧
      theme.get? (Theme.variableName "--opacity" "99.76") = none ∧
      alpha? theme (.named "99.75") = some "99.75%" ∧ alpha? theme (.named "99.76") = none := by
  intro theme
  have hread (places : Text) (h : places.IsDigits) :
      Numeral.SpelledBy ⟨"99", places⟩ ("99" ++ '.' :: places) := .point (by decide) h
  have hstep : Text.IsPlain "99.75" := by decide
  have hbetween : Text.IsPlain "99.76" := by decide
  have hvariable : theme.get? (Theme.variableName "--opacity" "99.75") = none := by decide
  have hvariable' : theme.get? (Theme.variableName "--opacity" "99.76") = none := by decide
  refine ⟨hstep, hbetween, hvariable, hvariable', ?_, ?_⟩
  · exact ((alpha?_named hstep hvariable).2 _ (hread "75" (by decide))).1 (by decide +kernel)
  · exact ((alpha?_named hbetween hvariable').2 _ (hread "76" (by decide))).2 (by decide)
      (by decide +kernel)

/-- With 15 places, a numeral above 100 that is no multiple of a quarter may be accepted. -/
theorem alpha?_of_rounded :
    let theme : Theme := ⟨.ofList [("--opacity-half", "50%")]⟩
    let n : Numeral := ⟨"100", "000000000000007"⟩
    n.SpelledBy "100.000000000000007" ∧ 100 < n.value ∧ ¬ (4 * n.value).isInt = true ∧
      theme.get? (Theme.variableName "--opacity" "100.000000000000007") = none ∧
      alpha? theme (.named "100.000000000000007") = some "100.000000000000007%" := by
  refine ⟨.point (by decide) (by decide), ?_, ?_, ?_, ?_⟩ <;> decide +kernel

end Modifier

end UtilityCss
