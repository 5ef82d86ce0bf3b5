import Mathlib.Data.Int.Log
import Mathlib.Algebra.Order.Floor.Semifield
import Mathlib.Data.Rat.Floor
import Mathlib.Tactic.Linarith
import Mathlib.Tactic.Ring
import UtilityCss.Decimal.Binary64

/-!
# Rounding to a number of few bits

A quotient is rounded in the steps that the numbers of the format are apart where it lies
(`Binary64.gap`). So it is rounded to a number of the format if it is at most half a step away from
it. Quotients in the middle go to the even neighbor, and a number of few bits is even in all the
steps around it: it takes both of its ends.

* `roundHalfEven_eq_iff`: which quotients are rounded to an even integer;
* `Binary64.gap_div`: the steps that a quotient is rounded in;
* `Binary64.round?_eq_some_iff`: which quotients are rounded to a number of few bits.
-/

namespace UtilityCss

/-- The quotients that are rounded to an even integer are those at most one half away. -/
theorem roundHalfEven_eq_iff {num den r : ℕ} (hden : 0 < den) (heven : r % 2 = 0) :
    roundHalfEven num den = r ↔
      2 * (den * r) ≤ 2 * num + den ∧ 2 * num ≤ 2 * (den * r) + den := by
  constructor
  · rintro rfl
    exact ⟨two_mul_roundHalfEven_le num den, le_two_mul_roundHalfEven num hden⟩
  · rintro ⟨hle, hge⟩
    have hdivision := Nat.div_add_mod num den
    have hmod := Nat.mod_lt num hden
    have hlow : num / den ≤ r := by
      by_contra hlt
      have := Nat.mul_le_mul_left den (Nat.succ_le_of_lt (Nat.lt_of_not_le hlt))
      rw [Nat.mul_succ] at this
      omega
    have hhigh : r ≤ num / den + 1 := by
      by_contra hlt
      have := Nat.mul_le_mul_left den (Nat.succ_le_of_lt (Nat.lt_of_not_le hlt))
      rw [Nat.mul_succ, Nat.mul_succ] at this
      omega
    unfold roundHalfEven
    dsimp only
    rcases Nat.eq_or_lt_of_le hlow with heq | hlt
    · -- The quotient is cut off. In the middle, the integer below is even.
      rw [if_neg, heq]
      rw [heq] at hdivision ⊢
      omega
    · have heq : r = num / den + 1 := by omega
      rw [heq, Nat.mul_succ] at hle
      rw [if_pos, heq]
      omega

namespace Binary64

/-- One in units. The exponent is a variable, so that the power is not evaluated. -/
theorem one_eq {n : ℕ} (h : 1074 = n) : one = 2 ^ n := by
  unfold one
  rw [h]
  exact Nat.pow_eq

theorem pow_le_limit {n : ℕ} (h : n ≤ 2098) : 2 ^ n ≤ limit := by
  unfold limit
  generalize 2098 = m at h ⊢
  exact Nat.pow_le_pow_right (by decide) h

theorem one_pos : 0 < one := by
  unfold one
  generalize 1074 = n
  exact Nat.pow_pos (by decide)

/-- A power of two in units, as a number. -/
theorem two_pow_div_one (n : ℕ) : ((2 ^ n : ℕ) : ℚ) / one = 2 ^ ((n : ℤ) - 1074) := by
  obtain ⟨m, hm⟩ : ∃ m : ℕ, 1074 = m := ⟨_, rfl⟩
  have hm' : (1074 : ℤ) = m := by rw [← hm, Nat.cast_ofNat]
  rw [one_eq hm, hm', Nat.cast_pow, Nat.cast_pow, Nat.cast_ofNat, zpow_sub₀ (by decide),
    zpow_natCast, zpow_natCast]

/-- How many units the numbers around a quotient are apart. -/
def spacing (num den : ℕ) : ℕ :=
  2 ^ droppedBits (num * one / den)

/-- How far the numbers of the format around `x` are apart: they have 53 bits, and are multiples of
    the smallest one. -/
def gap (x : ℚ) : ℚ :=
  if x < 2 ^ (-1022 : ℤ) then 2 ^ (-1074 : ℤ) else 2 ^ (Int.log 2 x - 52)

theorem gap_pos (x : ℚ) : 0 < gap x := by
  rw [gap]
  split
  · exact zpow_pos (by decide) _
  · exact zpow_pos (by decide) _

/-- Numbers of 53 bits are close, measured by their size. -/
theorem gap_le_mul {x : ℚ} (h : 2 ^ (-1022 : ℤ) ≤ x) : gap x ≤ x * 2 ^ (-52 : ℤ) := by
  have hpos : 0 < x := (zpow_pos (by decide) _).trans_le h
  rw [gap, if_neg (not_lt.2 h), sub_eq_add_neg, zpow_add₀ (by decide)]
  exact mul_le_mul_of_nonneg_right (Int.zpow_log_le_self (by decide) hpos)
    (zpow_nonneg (by decide) _)

theorem gap_le_of_lt {x : ℚ} {e : ℤ} (he : -1022 ≤ e) (h : x < 2 ^ (e + 1)) :
    gap x ≤ 2 ^ (e - 52) := by
  rw [gap]
  split
  · exact zpow_le_zpow_right₀ (by decide) (by omega)
  · next hlarge =>
    have hpos : 0 < x := (zpow_pos (by decide) _).trans_le (le_of_not_gt hlarge)
    have hlog := (Int.lt_zpow_iff_log_lt (b := 2) (by decide) hpos).1 (by exact_mod_cast h)
    exact zpow_le_zpow_right₀ (by decide) (by omega)

theorem droppedBits_of_lt {units : ℕ} (h : units < 2 ^ 52) : droppedBits units = 0 := by
  rcases Nat.eq_zero_or_pos units with rfl | hpos
  · rfl
  · have := (Nat.log2_lt hpos.ne').2 h
    rw [droppedBits]
    omega

theorem droppedBits_of_le {units n : ℕ} (hle : 2 ^ n ≤ units) (hlt : units < 2 ^ (n + 1)) :
    droppedBits units = n - 52 := by
  have hne : units ≠ 0 := ((Nat.pow_pos (by decide)).trans_le hle).ne'
  rw [droppedBits, (Nat.log2_eq_iff hne).2 ⟨hle, hlt⟩]

/-- A quotient is rounded in the steps that the numbers around it are apart. -/
theorem gap_div (num den : ℕ) : gap (num / den) = spacing num den / one := by
  have hfloor : num * one / den = ⌊(num : ℚ) / den * one⌋₊ := by
    rw [← Nat.floor_div_eq_div (K := ℚ), Nat.cast_mul, mul_div_right_comm]
  have hnonneg : 0 ≤ (num : ℚ) / den := div_nonneg (Nat.cast_nonneg _) (Nat.cast_nonneg _)
  rw [spacing, hfloor, gap, two_pow_div_one]
  generalize (num : ℚ) / den = x at hnonneg
  have hone : (0 : ℚ) < one := Nat.cast_pos.2 one_pos
  have hscaled : 0 ≤ x * one := mul_nonneg hnonneg hone.le
  split
  · next hsmall =>
    have hlt : ⌊x * one⌋₊ < 2 ^ 52 := by
      rw [Nat.floor_lt hscaled, ← lt_div_iff₀ hone, two_pow_div_one]
      exact hsmall
    have hzero : ((0 : ℕ) : ℤ) - 1074 = -1074 := by omega
    rw [droppedBits_of_lt hlt, hzero]
  · next hlarge =>
    have hpos : 0 < x := (zpow_pos (by decide) _).trans_le (le_of_not_gt hlarge)
    have hlog : -1022 ≤ Int.log 2 x :=
      (Int.zpow_le_iff_le_log (b := 2) (by decide) hpos).1 (by exact_mod_cast le_of_not_gt hlarge)
    -- The logarithm of the units that are left after cutting off.
    obtain ⟨n, hn⟩ : ∃ n : ℕ, Int.log 2 x = n - 1074 := ⟨(Int.log 2 x + 1074).toNat, by omega⟩
    have hle : 2 ^ n ≤ ⌊x * one⌋₊ := by
      rw [Nat.le_floor_iff hscaled, ← div_le_iff₀ hone, two_pow_div_one, ← hn]
      exact Int.zpow_log_le_self (by decide) hpos
    have hlt : ⌊x * one⌋₊ < 2 ^ (n + 1) := by
      rw [Nat.floor_lt hscaled, ← lt_div_iff₀ hone, two_pow_div_one, Nat.cast_add_one,
        add_sub_right_comm, ← hn]
      exact Int.lt_zpow_succ_log_self (by decide) x
    have hlog : ((n - 52 : ℕ) : ℤ) - 1074 = n - 1074 - 52 := by omega
    rw [droppedBits_of_le hle hlt, hn, hlog]

variable {num den : ℕ}

/-- A quotient is at most half a step away from a number of units. -/
theorem abs_sub_le_half_gap_iff (hden : 0 < den) (units : ℕ) :
    |(num : ℚ) / den - units / one| ≤ gap (num / den) / 2 ↔
      2 * (den * units) ≤ 2 * (num * one) + den * spacing num den ∧
        2 * (num * one) ≤ 2 * (den * units) + den * spacing num den := by
  have hden' : (0 : ℚ) < den := Nat.cast_pos.2 hden
  have hone : (0 : ℚ) < one := Nat.cast_pos.2 one_pos
  have hscaled : (num : ℚ) / den - units / one = (num * one - den * units) / (den * one) :=
    div_sub_div _ _ hden'.ne' hone.ne'
  have hstep : (spacing num den / one / 2 : ℚ) = den * spacing num den / 2 / (den * one) := by
    rw [mul_div_assoc, mul_div_mul_left _ _ hden'.ne', div_right_comm]
  rw [gap_div, hscaled, hstep, abs_div, abs_of_pos (mul_pos hden' hone),
    div_le_div_iff_of_pos_right (mul_pos hden' hone), abs_sub_le_iff]
  -- Both sides are now statements on integers.
  have hcast : ∀ a b c : ℕ, (a - b : ℚ) ≤ c / 2 ↔ 2 * a ≤ 2 * b + c := fun a b c => by
    rw [← Nat.cast_le (α := ℚ)]
    push_cast
    exact ⟨fun _ => by linarith, fun _ => by linarith⟩
  have h := hcast (num * one) (den * units) (den * spacing num den)
  have h' := hcast (den * units) (num * one) (den * spacing num den)
  push_cast at h h'
  rw [h, h', and_comm]

theorem round?_eq (num den : ℕ) :
    round? num den =
      let units := roundHalfEven (num * one) (den * spacing num den) * spacing num den
      if units < limit then some ⟨units⟩ else none := rfl

/-- What a quotient is rounded to is at most half a step away from it. -/
theorem abs_sub_le_of_round? (hden : 0 < den) {x : Binary64} (h : round? num den = some x) :
    |(num : ℚ) / den - x.units / one| ≤ gap (num / den) / 2 := by
  rw [round?_eq] at h
  obtain ⟨_, h⟩ := Option.ite_none_right_eq_some.1 h
  cases h
  rw [abs_sub_le_half_gap_iff hden]
  have hpos : 0 < den * spacing num den := Nat.mul_pos hden (Nat.pow_pos (by decide))
  have hle := two_mul_roundHalfEven_le (num * one) (den * spacing num den)
  have hge := le_two_mul_roundHalfEven (num * one) hpos
  rw [Nat.mul_assoc, Nat.mul_comm (spacing num den)] at hle hge
  exact ⟨hle, hge⟩

/-- Half a step away from a number of up to 52 bits and a few zeros, the steps are no coarser than
    the zeros show. -/
theorem droppedBits_le (hden : 0 < den) {units e : ℕ} (hlt : units < 2 ^ (52 + e))
    (h : 2 * (num * one) ≤ 2 * (den * units) + den * spacing num den) :
    droppedBits (num * one / den) ≤ e := by
  by_contra hdropped
  rw [Nat.not_le] at hdropped
  have hfloor := Nat.mul_div_le (num * one) den
  rw [spacing] at h
  generalize num * one / den = floor at *
  generalize hd : droppedBits floor = d at *
  have hle : 2 ^ (52 + d) ≤ floor := by
    have hlog : floor.log2 = 52 + d := by
      rw [droppedBits] at hd
      omega
    have hne : floor ≠ 0 := by
      rintro rfl
      rw [Nat.log2_zero] at hlog
      omega
    rw [← hlog]
    exact Nat.log2_self_le hne
  have hfine : 2 ^ d ≤ floor := (Nat.pow_le_pow_right (by decide) (by omega)).trans hle
  have hcoarse : 2 ^ (52 + e) * 2 ≤ floor :=
    (pow_succ 2 (52 + e)).symm.trans_le ((Nat.pow_le_pow_right (by decide) (by omega)).trans hle)
  have hunits : den * (2 * floor) ≤ den * (2 * units + 2 ^ d) := by
    rw [Nat.mul_add]
    linarith
  have := Nat.le_of_mul_le_mul_left hunits hden
  omega

/-- A number of few bits is what the quotients around it are rounded to, up to half a step on both
    sides. -/
theorem round?_eq_some_iff (hden : 0 < den) {k e : ℕ} (hk : k < 2 ^ 51) (he : e ≤ 2046) :
    round? num den = some ⟨k * 2 ^ (e + 1)⟩ ↔
      |(num : ℚ) / den - (k * 2 ^ (e + 1) : ℕ) / one| ≤ gap (num / den) / 2 := by
  refine ⟨abs_sub_le_of_round? hden, fun h => ?_⟩
  rw [abs_sub_le_half_gap_iff hden] at h
  generalize hunits : k * 2 ^ (e + 1) = units at h ⊢
  have hlt : units < 2 ^ (52 + e) := by
    rw [← hunits, show 52 + e = 51 + (e + 1) by omega, pow_add _ 51]
    exact Nat.mul_lt_mul_of_pos_right hk (Nat.two_pow_pos _)
  -- In steps, the number is even.
  obtain ⟨r, hr, heven⟩ : ∃ r, units = r * spacing num den ∧ r % 2 = 0 := by
    obtain ⟨i, hi⟩ := Nat.exists_eq_add_of_le (droppedBits_le hden hlt h.2)
    refine ⟨k * 2 ^ i * 2, ?_, Nat.mul_mod_left _ _⟩
    rw [← hunits, spacing, hi]
    ring
  rw [hr, Nat.mul_comm r, ← Nat.mul_assoc den] at h
  have hpos : 0 < den * spacing num den := Nat.mul_pos hden (Nat.two_pow_pos _)
  dsimp only [round?_eq]
  rw [(roundHalfEven_eq_iff hpos heven).2 h, ← hr]
  exact if_pos (hlt.trans_le (pow_le_limit (by omega)))

end Binary64

end UtilityCss
