import Mathlib.Algebra.Order.Field.Basic
import Mathlib.Algebra.Order.Ring.Rat
import Mathlib.Data.List.DropRight
import Mathlib.Data.List.Induction
import Mathlib.Data.List.TakeWhile
import Mathlib.Data.Rat.Lemmas
import Mathlib.Tactic.FieldSimp
import Mathlib.Tactic.Ring
import UtilityCss.Text.Blank
import UtilityCss.Text.Numeral

/-!
# The numbers that numerals denote

Numerals are told apart by their digits: zeros are stripped off, the digits that are left are
counted, or compared with a few patterns. What is decided in this way is a fact on numbers of any
length.

* `Text.digitsValue_append`: the number of two texts of digits, one behind the other;
* `Text.digitsValue_eq_zero_iff`, `Text.digitsValue_dropWhile_zero`, `Text.pow_le_digitsValue`:
  what zeros say of a number;
* `Text.digitsValue_lt_pow`: what the length says of it;
* `Text.digitsValue_ofNat`: the decimal digits of a number denote it;
* `Numeral.SpelledBy`: how a numeral is written in ASCII digits;
* `Numeral.ofText?_eq_some_iff`: a text without blanks is read as the numeral that it spells;
* `Numeral.isQuarters_iff`: the digits show a multiple of a quarter if the number is one.
-/

namespace UtilityCss

/-! ## Digits -/

/-- A digit is written by its value. -/
theorem exists_digit {c : Char} (h : c.isDigit = true) :
    ∃ d < 10, c = Char.ofNat (48 + d) ∧ digitValue? c = some d := by
  have hall : ∀ n < 128, (Char.ofNat n).isDigit = true → ∃ d < 10,
      Char.ofNat n = Char.ofNat (48 + d) ∧ digitValue? (Char.ofNat n) = some d := by
    decide +kernel
  exact of_toNat_lt (P := fun c => c.isDigit = true →
    ∃ d < 10, c = Char.ofNat (48 + d) ∧ digitValue? c = some d) hall
    (toNat_lt_of_isDigit h) h

/-- Of the ASCII characters the digits are decimal. -/
theorem isDecimal_eq_isDigit {c : Char} (h : c.toNat < 128) : isDecimal c = c.isDigit :=
  of_toNat_lt (P := fun c => isDecimal c = c.isDigit) (by decide +kernel) h

namespace Text

theorem digitsValue_nil : digitsValue [] = 0 := rfl

theorem digitsValue_concat (s : Text) (c : Char) :
    digitsValue (s ++ [c]) = 10 * s.digitsValue + (digitValue? c).getD 0 := by
  rw [digitsValue, List.foldl_append]
  rfl

theorem digitsValue_append (s t : Text) :
    digitsValue (s ++ t) = s.digitsValue * 10 ^ t.length + t.digitsValue := by
  induction t using List.reverseRecOn with
  | nil => simp [digitsValue_nil]
  | append_singleton t c ih =>
    rw [← List.append_assoc, digitsValue_concat, ih, digitsValue_concat, List.length_append,
      List.length_singleton, pow_succ]
    ring

theorem digitsValue_cons (c : Char) (s : Text) :
    digitsValue (c :: s) = (digitValue? c).getD 0 * 10 ^ s.length + s.digitsValue := by
  rw [← List.singleton_append, digitsValue_append, ← List.nil_append [c], digitsValue_concat,
    digitsValue_nil, Nat.mul_zero, Nat.zero_add]

/-- Zeros in front do not change a number. -/
theorem digitsValue_dropWhile_zero (s : Text) :
    digitsValue (s.dropWhile (· = '0')) = s.digitsValue := by
  induction s with
  | nil => rfl
  | cons c s ih =>
    by_cases hc : c = '0'
    · have hzero : digitValue? c = some 0 := by
        rw [hc]
        decide
      rw [List.dropWhile_cons_of_pos (p := fun c => decide (c = '0')) (decide_eq_true hc), ih,
        digitsValue_cons, hzero, Option.getD_some, Nat.zero_mul, Nat.zero_add]
    · rw [List.dropWhile_cons_of_neg (by simpa using hc)]

theorem digitsValue_replicate_zero (n : Nat) : digitsValue (List.replicate n '0') = 0 := by
  rw [← digitsValue_dropWhile_zero, List.dropWhile_eq_nil_iff.2]
  · rfl
  · intro c hc
    exact decide_eq_true (List.eq_of_mem_replicate hc)

/-- A number is zero if there is no digit but zeros. -/
theorem digitsValue_eq_zero_iff {s : Text} (h : ∀ c ∈ s, c.isDigit = true) :
    s.digitsValue = 0 ↔ ∀ c ∈ s, c = '0' := by
  induction s with
  | nil => simp [digitsValue_nil]
  | cons c s ih =>
    obtain ⟨hc, hs⟩ := List.forall_mem_cons.1 h
    obtain ⟨d, hd, rfl, hvalue⟩ := exists_digit hc
    rw [digitsValue_cons, hvalue, Option.getD_some, Nat.add_eq_zero_iff, ih hs,
      List.forall_mem_cons, Nat.mul_eq_zero, or_iff_left (Nat.pow_pos (by decide)).ne']
    refine and_congr_left fun _ => ⟨fun hzero => by rw [hzero], fun hzero => ?_⟩
    have hvalue' : digitValue? '0' = some 0 := by decide
    rw [hzero, hvalue'] at hvalue
    exact (Option.some.inj hvalue).symm

/-- A number of so many digits of which the first is not zero. -/
theorem pow_le_digitsValue {c : Char} {s : Text} (h : c.isDigit = true) (hc : c ≠ '0') :
    10 ^ s.length ≤ digitsValue (c :: s) := by
  obtain ⟨d, _, rfl, hvalue⟩ := exists_digit h
  have hd : 0 < d := Nat.pos_of_ne_zero fun hzero => hc (by rw [hzero])
  rw [digitsValue_cons, hvalue, Option.getD_some]
  exact (Nat.le_mul_of_pos_left _ hd).trans (Nat.le_add_right _ _)

/-- A number of so many digits. -/
theorem digitsValue_lt_pow (s : Text) : s.digitsValue < 10 ^ s.length := by
  induction s with
  | nil => exact Nat.one_pos
  | cons c s ih =>
    have hdigit : (digitValue? c).getD 0 ≤ 9 := by
      cases hd : digitValue? c with
      | none => exact Nat.zero_le 9
      | some d => exact Nat.le_of_lt_succ (digitValue?_lt hd)
    calc digitsValue (c :: s) = (digitValue? c).getD 0 * 10 ^ s.length + digitsValue s :=
          digitsValue_cons c s
      _ < 9 * 10 ^ s.length + 10 ^ s.length :=
          Nat.add_lt_add_of_le_of_lt (Nat.mul_le_mul_right _ hdigit) ih
      _ = 10 ^ (c :: s).length := by
          rw [List.length_cons, pow_succ]
          ring

/-- The text consists of ASCII digits, of which there is at least one. -/
def IsDigits (s : Text) : Prop :=
  s ≠ [] ∧ ∀ c ∈ s, c.isDigit = true

instance (s : Text) : Decidable s.IsDigits :=
  -- Only the characters of the text are to be searched.
  decidable_of_iff (s ≠ [] ∧ s.all Char.isDigit = true) (by rw [List.all_eq_true]; rfl)

theorem IsDigits.isDecimal {s : Text} (h : s.IsDigits) : ∀ c ∈ s, isDecimal c = true := by
  intro c hc
  rw [isDecimal_eq_isDigit (toNat_lt_of_isDigit (h.2 c hc))]
  exact h.2 c hc

/-- The number of ASCII digits is that of the digits in base ten. -/
theorem digitsValue_eq_ofDigitChars {s : Text} (h : ∀ c ∈ s, c.isDigit = true) :
    s.digitsValue = Nat.ofDigitChars 10 s 0 := by
  rw [digitsValue, Nat.ofDigitChars]
  refine List.foldl_ext _ _ 0 fun n c hc => ?_
  have hvalue : ∀ d < 10, d = (Char.ofNat (48 + d)).toNat - '0'.toNat := by decide
  obtain ⟨d, hd, rfl, hdigit⟩ := exists_digit (h c hc)
  rw [hdigit, Option.getD_some, ← hvalue d hd]

theorem isDigits_ofNat (n : Nat) : (ofNat n).IsDigits :=
  ⟨Nat.toDigits_ne_nil, fun _ hc => Nat.isDigit_of_mem_toDigits (by decide) (by decide) hc⟩

theorem digitsValue_ofNat (n : Nat) : (ofNat n).digitsValue = n := by
  rw [digitsValue_eq_ofDigitChars (isDigits_ofNat n).2]
  exact Nat.ofDigitChars_toDigits (by decide) (by decide)

/-- The text consists of ASCII characters, of which none is a blank. -/
def IsPlain (s : Text) : Prop :=
  ∀ c ∈ s, c.toNat < 128 ∧ isBlank c = false

instance (s : Text) : Decidable s.IsPlain :=
  decidable_of_iff (s.all (fun c => c.toNat < 128 && !isBlank c) = true)
    (by simp [List.all_eq_true, IsPlain])

theorem IsPlain.not_mem_newline {s : Text} (h : s.IsPlain) : '\n' ∉ s := fun hmem =>
  absurd (h _ hmem).2 (by decide)

/-- Only zeros are taken off the end of a text with its zeros. -/
theorem exists_eq_dropEndWhile_zero (s : Text) :
    ∃ n, s = dropEndWhile (· = '0') s ++ List.replicate n '0' := by
  have hrun : ∀ c ∈ s.reverse.takeWhile (· = '0'), c = '0' := fun c hc => by
    simpa using List.mem_takeWhile_imp hc
  refine ⟨(s.reverse.takeWhile (· = '0')).length, ?_⟩
  rw [← List.reverse_inj, dropEndWhile, List.reverse_append, List.reverse_reverse,
    List.reverse_replicate, ← List.eq_replicate_of_mem hrun, List.takeWhile_append_dropWhile]

theorem getLast?_dropEndWhile_ne (s : Text) :
    (dropEndWhile (· = '0') s).getLast? ≠ some '0' := by
  rw [dropEndWhile, List.getLast?_reverse]
  have hhead := List.head?_dropWhile_not (fun c => decide (c = '0')) s.reverse
  intro h
  rw [h] at hhead
  simp at hhead

/-- The digits after the point of a multiple of a quarter, without zeros at the end. -/
theorem mem_quarters_iff {s : Text} (h : ∀ c ∈ s, c.isDigit = true)
    (hlast : s.getLast? ≠ some '0') :
    s ∈ [[], ['2', '5'], ['5'], ['7', '5']] ↔ 10 ^ s.length ∣ 4 * s.digitsValue := by
  constructor
  · intro hmem
    simp only [List.mem_cons, List.not_mem_nil, or_false] at hmem
    rcases hmem with rfl | rfl | rfl | rfl <;> decide
  · intro hdvd
    induction s using List.reverseRecOn with
    | nil => exact .head _
    | append_singleton s c _ =>
      obtain ⟨hs, hc⟩ := List.forall_mem_append.1 h
      obtain ⟨d, hd, rfl, hvalue⟩ := exists_digit (hc c (.head _))
      have hne : d ≠ 0 := fun hzero => hlast (by rw [hzero, List.getLast?_concat])
      rw [digitsValue_concat, hvalue, Option.getD_some, List.length_append,
        List.length_singleton, pow_succ] at hdvd
      induction s using List.reverseRecOn with
      | nil =>
        -- One place: four times the digit is a multiple of ten.
        obtain rfl : d = 5 := by
          rw [digitsValue_nil, List.length_nil] at hdvd
          omega
        decide
      | append_singleton s b _ =>
        obtain ⟨e, he, rfl, hvalue'⟩ := exists_digit (hs b (List.mem_concat_self))
        rw [digitsValue_concat, hvalue', Option.getD_some, List.length_append,
          List.length_singleton, pow_succ] at hdvd
        cases s with
        | nil =>
          rw [digitsValue_nil, List.length_nil] at hdvd
          obtain ⟨rfl, rfl⟩ | ⟨rfl, rfl⟩ : e = 2 ∧ d = 5 ∨ e = 7 ∧ d = 5 := by omega
          · decide
          · decide
        | cons a s =>
          -- With three places or more, the last digit would have to be zero.
          have hthousand : 1000 ∣ 10 ^ (a :: s).length * 10 * 10 :=
            Dvd.intro_left (10 ^ s.length) (by rw [List.length_cons, pow_succ]; ring)
          have := hthousand.trans hdvd
          omega

end Text

namespace Numeral

/-- How a numeral is written. -/
inductive SpelledBy : Numeral → Text → Prop
  | whole {whole : Text} : whole.IsDigits → SpelledBy ⟨whole, []⟩ whole
  | point {whole places : Text} : whole.IsDigits → places.IsDigits →
      SpelledBy ⟨whole, places⟩ (whole ++ '.' :: places)

/-- The number that a numeral denotes. -/
def value (n : Numeral) : ℚ :=
  n.digits / n.scale

variable {n : Numeral} {s : Text}

theorem SpelledBy.isDigit_places (h : n.SpelledBy s) : ∀ c ∈ n.places, c.isDigit = true := by
  cases h with
  | whole => exact fun c hc => nomatch hc
  | point _ hplaces => exact hplaces.2

theorem SpelledBy.isDigit (h : n.SpelledBy s) : ∀ c ∈ n.whole ++ n.places, c.isDigit = true := by
  cases h with
  | whole hwhole => simpa using hwhole.2
  | point hwhole hplaces => exact List.forall_mem_append.2 ⟨hwhole.2, hplaces.2⟩

/-- Apart from the point, a numeral is written with its digits. -/
theorem SpelledBy.mem_iff (h : n.SpelledBy s) {c : Char} (hc : c ≠ '.') :
    c ∈ s ↔ c ∈ n.whole ++ n.places := by
  cases h with
  | whole => rw [List.append_nil]
  | point => simp [hc]

theorem scale_pos (n : Numeral) : 0 < n.scale :=
  Nat.pow_pos (by decide)

theorem value_nonneg (n : Numeral) : 0 ≤ n.value :=
  div_nonneg (Nat.cast_nonneg _) (Nat.cast_nonneg _)

theorem value_eq_zero_iff : n.value = 0 ↔ n.digits = 0 := by
  rw [value, div_eq_zero_iff, Nat.cast_eq_zero, or_iff_left]
  exact Nat.cast_ne_zero.2 n.scale_pos.ne'

/-- A text without blanks is read as the numeral that it spells, if it is ASCII. -/
theorem ofText?_eq_some_iff (hs : s.IsPlain) : ofText? s = some n ↔ n.SpelledBy s := by
  rw [ofText?, Text.dropFinalNewline_eq_self hs.not_mem_newline]
  have hsplit := List.takeWhile_append_dropWhile (p := isDecimal) (l := s)
  have hdigit {t : Text} (ht : ∀ c ∈ t, isDecimal c = true) (hsub : t ⊆ s) :
      ∀ c ∈ t, c.isDigit = true := fun c hc => by
    rw [← isDecimal_eq_isDigit (hs c (hsub hc)).1]
    exact ht c hc
  constructor
  · intro h
    obtain ⟨hne, h⟩ := Option.ite_none_left_eq_some.1 h
    have hwhole : Text.IsDigits (s.takeWhile isDecimal) :=
      ⟨fun hnil => hne (List.isEmpty_iff.2 hnil),
        hdigit (fun c hc => List.mem_takeWhile_imp hc) (List.takeWhile_subset _)⟩
    split at h
    · next hrest =>
      cases h
      rw [hrest, List.append_nil] at hsplit
      rw [hsplit] at hwhole ⊢
      exact .whole hwhole
    · next c places hrest =>
      obtain ⟨hc, h⟩ := Option.ite_none_right_eq_some.1 h
      cases h
      simp only [Bool.and_eq_true, decide_eq_true_eq, Bool.not_eq_true', List.all_eq_true] at hc
      obtain ⟨⟨rfl, hplaces⟩, hall⟩ := hc
      have hsub : places ⊆ s := fun c hc =>
        (List.dropWhile_sublist _).subset (hrest ▸ List.mem_cons_of_mem _ hc)
      have hspelled := SpelledBy.point hwhole
        ⟨fun hnil => by simp [hnil] at hplaces, hdigit hall hsub⟩
      rwa [← hrest, hsplit] at hspelled
  · intro h
    cases h with
    | whole hwhole =>
      rw [List.takeWhile_eq_self_iff.2 hwhole.isDecimal,
        List.dropWhile_eq_nil_iff.2 hwhole.isDecimal]
      exact if_neg (mt List.isEmpty_iff.1 hwhole.1)
    | @point whole places hwhole hplaces =>
      have hpoint : isDecimal '.' = false := by decide
      rw [List.takeWhile_append_of_pos hwhole.isDecimal,
        List.dropWhile_append_of_pos hwhole.isDecimal,
        List.takeWhile_cons_of_neg (by simp [hpoint]),
        List.dropWhile_cons_of_neg (by simp [hpoint]), List.append_nil]
      have hempty : places.isEmpty = false := eq_false_of_ne_true (mt List.isEmpty_iff.1 hplaces.1)
      have hall : places.all isDecimal = true := List.all_eq_true.2 hplaces.isDecimal
      simp [hwhole.1, hempty, hall]

/-- The digits show a multiple of a quarter if the number is one. -/
theorem isQuarters_iff (h : ∀ c ∈ n.places, c.isDigit = true) :
    n.isQuarters = true ↔ (4 * n.value).isInt = true := by
  obtain ⟨zeros, hplaces⟩ := Text.exists_eq_dropEndWhile_zero n.places
  have hlast := Text.getLast?_dropEndWhile_ne n.places
  rw [isQuarters]
  generalize Text.dropEndWhile (· = '0') n.places = shown at hplaces hlast ⊢
  have hshown : ∀ c ∈ shown, c.isDigit = true := fun c hc =>
    h c (hplaces ▸ List.mem_append_left _ hc)
  have hvalue : 4 * n.value = ((4 * n.digits : ℕ) : ℚ) / ((10 ^ n.places.length : ℕ) : ℚ) := by
    rw [value, scale, Nat.pow_eq, Nat.cast_mul, mul_div_assoc]
    rfl
  have hinteger : (4 * n.value).isInt = true ↔ 10 ^ n.places.length ∣ 4 * n.digits := by
    rw [hvalue, ← Rat.den_div_natCast_eq_one_iff _ _ (Nat.pow_pos (by decide)).ne', Rat.isInt,
      beq_iff_eq]
  have hdvd : 10 ^ n.places.length ∣ 4 * n.digits ↔
      10 ^ shown.length ∣ 4 * shown.digitsValue := by
    rw [digits, Text.digitsValue_append, Nat.mul_add, ← Nat.mul_assoc,
      Nat.dvd_add_right (Nat.dvd_mul_left _ _), hplaces, Text.digitsValue_append,
      Text.digitsValue_replicate_zero, Nat.add_zero, List.length_append, List.length_replicate,
      pow_add, ← Nat.mul_assoc, Nat.mul_dvd_mul_iff_right (Nat.pow_pos (by decide))]
  rw [List.contains_iff_mem, Text.mem_quarters_iff hshown hlast, hinteger, hdvd]

end Numeral

end UtilityCss
