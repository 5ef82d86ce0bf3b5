import UtilityCss.Compilation.Value
import UtilityCss.Proofs.Decimal.Numeral

/-!
# Bare forms decide numbers

A percentage is judged by how many digits are left without zeros in front, a multiple of the spacing
unit by a few patterns for its last digits, and a denominator by whether it has a character other
than zeros and a point. Each of these tests is one on the number that is written, however long the
numeral is.

* `percentageValue?_eq`: whole numbers up to 100;
* `spacingValue?_of_spelledBy`, `spacingValue?_of_not_spelled`: multiples of a quarter;
* `fractionValue?_of_spelledBy`: no fraction divides by zero;
* `BareForm.value?_exact`: the three together.
-/

namespace UtilityCss

variable {theme : Theme} {key unit : Text}

/-! ## Percentages -/

theorem Text.isWholeNumeral_iff (hkey : key.IsPlain) :
    key.isWholeNumeral = true ↔ key.IsDigits := by
  rw [isWholeNumeral, dropFinalNewline_eq_self hkey.not_mem_newline]
  simp only [Bool.and_eq_true, Bool.not_eq_true', List.isEmpty_eq_false_iff, List.all_eq_true,
    IsDigits]
  refine and_congr_right fun _ => forall₂_congr fun c hc => ?_
  rw [isDecimal_eq_isDigit (hkey c hc).1]

/-- The digits that a percentage is judged by denote the same number. More than three of them denote
    a number beyond 100, as the first is no zero. -/
theorem digits_of_percentage (hkey : ∀ c ∈ key, c.isDigit = true) :
    let stripped : Text := key.dropWhile (· = '0')
    let digits : Text := if stripped.isEmpty then ['0'] else stripped
    digits.digitsValue = key.digitsValue ∧ digits ≠ [] ∧ (∀ c ∈ digits, c.isDigit = true) ∧
      (3 < digits.length → 100 < digits.digitsValue) := by
  have hvalue := Text.digitsValue_dropWhile_zero key
  have hdigit : ∀ c ∈ key.dropWhile (· = '0'), c.isDigit = true := fun c hc =>
    hkey c ((List.dropWhile_sublist _).subset hc)
  have hhead := List.head?_dropWhile_not (fun c => decide (c = '0')) key
  generalize key.dropWhile (· = '0') = stripped at hvalue hdigit hhead
  intro stripped' digits
  cases stripped with
  | nil => exact ⟨hvalue, List.cons_ne_nil _ _, List.forall_mem_singleton.2 rfl, nofun⟩
  | cons c rest =>
    obtain ⟨hc, _⟩ := List.forall_mem_cons.1 hdigit
    refine ⟨hvalue, List.cons_ne_nil _ _, hdigit, fun hlong => ?_⟩
    have hle := Text.pow_le_digitsValue (s := rest) hc (of_decide_eq_false hhead)
    have hpow : 10 ^ 3 ≤ 10 ^ rest.length :=
      Nat.pow_le_pow_right (by decide) (Nat.le_of_lt_succ hlong)
    exact Nat.lt_of_lt_of_le (by decide) (hpow.trans hle)

theorem percentageValue?_eq (hkey : key.IsPlain) : percentageValue? key
    = .ok (if key.IsDigits ∧ key.digitsValue ≤ 100 then some (key ++ ['%']) else none) := by
  unfold percentageValue?
  extract_lets stripped digits
  by_cases hwhole : key.IsDigits
  · obtain ⟨hvalue, hne, hdigit, hlong⟩ := digits_of_percentage hwhole.2
    change digits.digitsValue = _ at hvalue
    have hbreak : Text.dropFinalNewline digits = digits :=
      Text.dropFinalNewline_eq_self fun hmem => absurd (hdigit _ hmem) (by decide)
    rw [(Text.isWholeNumeral_iff hkey).2 hwhole, hbreak, hvalue, Bool.not_true, Bool.false_or,
      if_neg (mt List.isEmpty_iff.1 hne)]
    split
    · next h =>
      have := hvalue ▸ hlong (of_decide_eq_true h)
      rw [if_neg fun h => Nat.not_le.2 this h.2]
    · simp only [hwhole, true_and]
      split <;> rfl
  · have hnot : key.isWholeNumeral = false :=
      eq_false_of_ne_true (mt (Text.isWholeNumeral_iff hkey).1 hwhole)
    rw [hnot, Bool.not_false, Bool.true_or, if_pos rfl, if_neg fun h => hwhole h.1]

/-! ## Multiples of the spacing unit -/

theorem spacingValue?_of_spelledBy (hunit : theme.get? "--spacing" = some unit)
    (hkey : key.IsPlain) {n : Numeral} (hn : n.SpelledBy key) : spacingValue? theme key
      = if (4 * n.value).isInt then some (Text.join [] ["calc(", unit, " * ", key, ")"])
        else none := by
  have hquarter : key.isQuarterNumeral = (4 * n.value).isInt := by
    rw [Text.isQuarterNumeral, (Numeral.ofText?_eq_some_iff hkey).2 hn, Option.any_some,
      Bool.eq_iff_iff, Numeral.isQuarters_iff hn.isDigit_places]
  rw [spacingValue?, hunit, hquarter]

theorem spacingValue?_of_not_spelled (hkey : key.IsPlain)
    (hn : ∀ n : Numeral, ¬ n.SpelledBy key) : spacingValue? theme key = none := by
  have hnone : Numeral.ofText? key = none :=
    Option.eq_none_iff_forall_ne_some.2 fun n h => hn n ((Numeral.ofText?_eq_some_iff hkey).1 h)
  have hquarter : key.isQuarterNumeral = false := by
    rw [Text.isQuarterNumeral, hnone, Option.any_none]
  rw [spacingValue?, hquarter]
  split
  · rfl
  · exact if_neg Bool.false_ne_true

/-! ## Fractions -/

theorem Numeral.SpelledBy.slash_not_mem {n : Numeral} {s : Text} (hn : n.SpelledBy s) :
    '/' ∉ s := fun hmem =>
  absurd (hn.isDigit _ ((hn.mem_iff (by decide)).1 hmem)) (by decide)

/-- A numeral without a digit but zeros denotes zero. -/
theorem Numeral.SpelledBy.value_eq_zero_iff_all {n : Numeral} {s : Text} (hn : n.SpelledBy s) :
    n.value = 0 ↔ s.all ['0', '.'].contains = true := by
  rw [value_eq_zero_iff, digits, Text.digitsValue_eq_zero_iff hn.isDigit]
  simp only [List.all_eq_true, List.contains_iff_mem, List.mem_cons, List.not_mem_nil, or_false]
  constructor
  · intro h c hc
    by_cases hpoint : c = '.'
    · exact .inr hpoint
    · exact .inl (h c ((hn.mem_iff hpoint).1 hc))
  · -- The digits are not the point, so the point is no way out for them.
    intro h c hc
    have hpoint : c ≠ '.' := ne_of_apply_ne Char.isDigit (by rw [hn.isDigit c hc]; decide)
    exact (h c ((hn.mem_iff hpoint).2 hc)).resolve_right hpoint

/-- A fraction has a value unless it divides by zero. -/
theorem fractionValue?_of_spelledBy {a b : Text} {n d : Numeral} (hn : n.SpelledBy a)
    (hd : d.SpelledBy b) : fractionValue? (a ++ '/' :: b)
      = if d.value = 0 then none
        else some (Text.join [] ["calc(", a ++ '/' :: b, " * 100%)"]) := by
  have hdenominator : ((a ++ '/' :: b).dropWhile (· ≠ '/')).tail = b := by
    rw [List.dropWhile_append_of_pos, List.dropWhile_cons_of_neg, List.tail_cons]
    · simp
    · exact fun c hc => decide_eq_true (ne_of_mem_of_not_mem hc hn.slash_not_mem)
  rw [fractionValue?, hdenominator]
  simp only [← hd.value_eq_zero_iff_all]

/-- A percentage is a whole number up to 100, a multiple of the spacing unit is a whole number of
    quarters, and a fraction does not divide by zero. The number of digits does not matter. -/
theorem BareForm.value?_exact (theme : Theme) :
    (∀ key : Text, key.IsPlain → BareForm.percentage.value? theme key
      = .ok (if key.IsDigits ∧ key.digitsValue ≤ 100 then some (key ++ ['%']) else none)) ∧
    (∀ unit, theme.get? "--spacing" = some unit → ∀ key : Text, key.IsPlain →
      (∀ n : Numeral, n.SpelledBy key → BareForm.spacing.value? theme key
        = .ok (if (4 * n.value).isInt then some (Text.join [] ["calc(", unit, " * ", key, ")"])
          else none)) ∧
      ((∀ n : Numeral, ¬ n.SpelledBy key) → BareForm.spacing.value? theme key = .ok none)) ∧
    ∀ (a b : Text) (n d : Numeral), n.SpelledBy a → d.SpelledBy b →
      fractionValue? (a ++ '/' :: b)
        = if d.value = 0 then none
          else some (Text.join [] ["calc(", a ++ '/' :: b, " * 100%)"]) :=
  ⟨fun _ hkey => percentageValue?_eq hkey,
    fun _ hunit _ hkey => ⟨fun _ hn => congrArg _ (spacingValue?_of_spelledBy hunit hkey hn),
      fun hn => congrArg _ (spacingValue?_of_not_spelled hkey hn)⟩,
    fun _ _ _ _ hn hd => fractionValue?_of_spelledBy hn hd⟩

/-- Zeros in front of a percentage and at the end of a multiple, a text that is no numeral, and two
    small denominators. -/
theorem BareForm.value?_exact_of_zeros :
    let theme : Theme := ⟨.ofList [("--spacing", "4px")]⟩
    let half : Numeral := ⟨"12345678901234567890", "500"⟩
    let eighth : Numeral := ⟨"7", "125"⟩
    let one : Numeral := ⟨"1", []⟩
    let zero : Numeral := ⟨"0", "000"⟩
    let thousandth : Numeral := ⟨"0", "001"⟩
    Text.IsPlain "0000100" ∧ theme.get? "--spacing" = some "4px".toList ∧
      half.SpelledBy "12345678901234567890.500" ∧ eighth.SpelledBy "7.125" ∧
      (∀ n : Numeral, ¬ n.SpelledBy "1e3") ∧ one.SpelledBy "1" ∧ zero.SpelledBy "0.000" ∧
      thousandth.SpelledBy "0.001" ∧
      BareForm.percentage.value? theme "0000100" = .ok (some "0000100%".toList) ∧
      BareForm.percentage.value? theme "0000101" = .ok none ∧
      BareForm.spacing.value? theme "12345678901234567890.500"
        = .ok (some "calc(4px * 12345678901234567890.500)".toList) ∧
      BareForm.spacing.value? theme "7.125" = .ok none ∧
      BareForm.spacing.value? theme "1e3" = .ok none ∧
      fractionValue? "1/0.000" = none ∧
      fractionValue? "1/0.001" = some "calc(1/0.001 * 100%)".toList := by
  intro theme half eighth one zero thousandth
  have hhalf : half.SpelledBy "12345678901234567890.500" := .point (by decide) (by decide)
  have heighth : eighth.SpelledBy "7.125" := .point (by decide) (by decide)
  have hone : one.SpelledBy "1" := .whole (by decide)
  have hzero : zero.SpelledBy "0.000" := .point (by decide) (by decide)
  have hthousandth : thousandth.SpelledBy "0.001" := .point (by decide) (by decide)
  have hword : ∀ n : Numeral, ¬ n.SpelledBy "1e3" := fun n h => by
    have hread := (Numeral.ofText?_eq_some_iff (by decide)).2 h
    exact absurd (hread.symm.trans (by decide : Numeral.ofText? "1e3" = none)) nofun
  obtain ⟨hpercentage, hspacing, hfraction⟩ := BareForm.value?_exact theme
  have hspacing := hspacing "4px" rfl
  refine ⟨by decide, rfl, hhalf, heighth, hword, hone, hzero, hthousandth,
    hpercentage "0000100" (by decide), hpercentage "0000101" (by decide),
    ((hspacing _ (by decide)).1 half hhalf).trans ?_,
    ((hspacing _ (by decide)).1 eighth heighth).trans ?_, (hspacing _ (by decide)).2 hword,
    (hfraction _ _ one zero hone hzero).trans ?_,
    (hfraction _ _ one thousandth hone hthousandth).trans ?_⟩
  all_goals decide +kernel

end UtilityCss
