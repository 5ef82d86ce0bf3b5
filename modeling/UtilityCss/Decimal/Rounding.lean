/-!
# Rounding to the nearest integer

A quotient halfway between two integers goes to the even one.

* `two_mul_roundHalfEven_le`, `le_two_mul_roundHalfEven`: the result is within one
  half of the quotient.
-/

namespace UtilityCss

/-- The integer nearest to `num / den`; of two at the same distance, the even one. -/
def roundHalfEven (num den : Nat) : Nat :=
  let floor := num / den
  let excess := 2 * (num % den)
  if den < excess ∨ (excess = den ∧ floor % 2 = 1) then floor + 1 else floor

theorem two_mul_roundHalfEven_le (num den : Nat) :
    2 * (den * roundHalfEven num den) ≤ 2 * num + den := by
  have hd := Nat.div_add_mod num den
  unfold roundHalfEven
  dsimp only
  split
  · rw [Nat.mul_add, Nat.mul_one]
    omega
  · omega

theorem le_two_mul_roundHalfEven (num : Nat) {den : Nat} (h : 0 < den) :
    2 * num ≤ 2 * (den * roundHalfEven num den) + den := by
  have hd := Nat.div_add_mod num den
  unfold roundHalfEven
  dsimp only
  split
  · rw [Nat.mul_add, Nat.mul_one]
    have := Nat.mod_lt num h
    omega
  · omega

end UtilityCss
