import Mathlib.Data.List.SplitBy
import UtilityCss.Proofs.Cascade.Order
import UtilityCss.Proofs.Decimal.Numeral

/-!
# Natural order goes by numbers

In natural order a run of digits is compared by the length and then the text of its digits without
zeros in front, and the run itself decides last. No number is ever computed, so the runs may be as
long as they like. This is the order of the numbers nonetheless, and no text is lost in its chunks.

* `Text.flatMap_text_chunks`: the chunks of a text join to it;
* `Text.chunks_digits`: a run of digits between other characters is a chunk of its own, whatever
  stands around it;
* `compareTexts_of_digitsValue_lt`: of as many digits each, the texts compare as the numbers do;
* `Chunk.compare_of_digitsValue_lt`: with the lengths in front, all runs do;
* `Text.chunks_natural`: both together.
-/

namespace UtilityCss

/-! ## Chunks -/

namespace Chunk

/-- The text that became a chunk. -/
def text : Chunk → Text
  | digits _ raw => raw
  | word text => text

theorem text_ofPart (part : Text) : (ofPart part).text = part := by
  rw [ofPart]
  split <;> rfl

/-- What a chunk compares by tells the chunk. -/
theorem fields_injective : Function.Injective fields := by
  intro a b h
  cases a <;> cases b <;> simp_all [fields]

end Chunk

namespace Text

variable {s t : Text}

theorem flatMap_text_chunks (s : Text) : s.chunks.flatMap Chunk.text = s := by
  rw [chunks, List.flatMap_map]
  simp only [Chunk.text_ofPart, List.flatMap_id']
  exact List.flatten_splitBy _ s

/-- Two texts are cut where one ends in a decimal digit and the other does not begin with one, or
    the other way round. -/
theorem chunks_append (h : ∀ c ∈ s.getLast?, ∀ d ∈ t.head?, isDecimal c ≠ isDecimal d) :
    (s ++ t).chunks = s.chunks ++ t.chunks := by
  have hcut : ∀ c ∈ s.getLast?, ∀ d ∈ t.head?, (isDecimal c == isDecimal d) = false :=
    fun c hc d hd => beq_false_of_ne (h c hc d hd)
  rw [chunks, parts, List.splitBy_append hcut, List.map_append]
  rfl

theorem chunks_of_isDigits (h : s.IsDigits) : s.chunks = [Chunk.ofPart s] := by
  have hchain : s.IsChain fun a b => (isDecimal a == isDecimal b) = true := by
    refine List.Pairwise.isChain (List.pairwise_of_forall_mem_list fun a ha b hb => ?_)
    rw [h.isDecimal a ha, h.isDecimal b hb]
    rfl
  rw [chunks, parts, List.splitBy_of_isChain h.1 hchain, List.map_singleton]

/-- A run of digits between other characters is a chunk of its own. -/
theorem chunks_digits {front digits rest : Text} (hdigits : digits.IsDigits)
    (hfront : ∀ c ∈ front.getLast?, isDecimal c = false)
    (hrest : ∀ c ∈ rest.head?, isDecimal c = false) :
    (front ++ digits ++ rest).chunks = front.chunks ++ Chunk.ofPart digits :: rest.chunks := by
  rw [List.append_assoc, chunks_append, chunks_append, chunks_of_isDigits hdigits,
    List.singleton_append]
  · intro c hc d hd
    rw [hdigits.isDecimal c (List.mem_of_mem_getLast? hc), hrest d hd]
    exact Bool.false_ne_true.symm
  · intro c hc d hd
    rw [List.head?_append_of_ne_nil _ hdigits.1] at hd
    rw [hfront c hc, hdigits.isDecimal d (List.mem_of_mem_head? hd)]
    exact Bool.false_ne_true

end Text

/-! ## Numbers -/

/-- Numbers with as many digits compare as their texts do. -/
theorem compareTexts_of_digitsValue_lt {s t : Text} (hs : ∀ c ∈ s, c.isDigit = true)
    (ht : ∀ c ∈ t, c.isDigit = true) (hlength : s.length = t.length)
    (h : s.digitsValue < t.digitsValue) : compareTexts s t = .lt := by
  induction s generalizing t with
  | nil =>
    rw [List.eq_nil_of_length_eq_zero hlength.symm] at h
    exact absurd h (Nat.lt_irrefl _)
  | cons c s ih =>
    obtain ⟨d, t, rfl⟩ := List.exists_cons_of_length_eq_add_one hlength.symm
    obtain ⟨hc, hsrest⟩ := List.forall_mem_cons.1 hs
    obtain ⟨hd, htrest⟩ := List.forall_mem_cons.1 ht
    replace hlength : s.length = t.length := Nat.succ_inj.1 hlength
    obtain ⟨x, hx, rfl, hxvalue⟩ := exists_digit hc
    obtain ⟨y, hy, rfl, hyvalue⟩ := exists_digit hd
    rw [Text.digitsValue_cons, Text.digitsValue_cons, hxvalue, hyvalue, hlength, Option.getD_some,
      Option.getD_some] at h
    have hcompare : ∀ x < 10, ∀ y < 10, x < y →
        compare (Char.ofNat (48 + x)) (Char.ofNat (48 + y)) = .lt := by decide
    rw [compareTexts, List.compareLex_cons_cons]
    rcases Nat.lt_trichotomy x y with hxy | rfl | hxy
    · rw [hcompare x hx y hy hxy]
      rfl
    · have hself : compare (Char.ofNat (48 + x)) (Char.ofNat (48 + x)) = .eq :=
        Std.ReflCmp.compare_self
      rw [hself]
      exact ih hsrest htrest hlength (Nat.lt_of_add_lt_add_left h)
    · -- A larger first digit outweighs all that is behind it.
      have hbehind := Text.digitsValue_lt_pow t
      have hfirst : (y + 1) * 10 ^ t.length ≤ x * 10 ^ t.length := Nat.mul_le_mul_right _ hxy
      rw [Nat.add_mul, Nat.one_mul] at hfirst
      omega

namespace Chunk

/-- A run of digits without the zeros in front is as large a number, and the length of what is left
    tells its size: a digit other than zero is the first, unless a single zero is left. -/
theorem ofPart_of_isDigits {s : Text} (h : s.IsDigits) :
    ∃ significant : Text, ofPart s = digits significant s ∧ significant.IsDigits ∧
      significant.digitsValue = s.digitsValue ∧
      (significant.length = 1 ∨ 10 ^ (significant.length - 1) ≤ significant.digitsValue) := by
  have hsign : s.all isDigitSign = true := List.all_eq_true.2 fun c hc =>
    Bool.or_eq_true_iff.2 (.inl (h.isDecimal c hc))
  rw [ofPart, if_pos hsign]
  have hvalue := s.digitsValue_dropWhile_zero
  have hdigits : ∀ c ∈ s.dropWhile (fun c => decide (c = '0')), c.isDigit = true := fun c hc =>
    h.2 c ((List.dropWhile_suffix _).mem hc)
  have hhead := List.head?_dropWhile_not (fun c => decide (c = '0')) s
  generalize s.dropWhile (fun c => decide (c = '0')) = stripped at hvalue hdigits hhead
  cases stripped with
  | nil => exact ⟨['0'], rfl, by decide, hvalue, .inl rfl⟩
  | cons c rest =>
    refine ⟨c :: rest, rfl, ⟨List.cons_ne_nil c rest, hdigits⟩, hvalue, .inr ?_⟩
    exact Text.pow_le_digitsValue (hdigits c (.head _)) (by simpa using hhead)

/-- Runs of digits compare as their numbers do. -/
theorem compare_of_digitsValue_lt {a b : Text} (ha : a.IsDigits) (hb : b.IsDigits)
    (h : a.digitsValue < b.digitsValue) : (ofPart a).compare (ofPart b) = .lt := by
  obtain ⟨x, hx, hxdigits, hxvalue, hxlength⟩ := ofPart_of_isDigits ha
  obtain ⟨y, hy, hydigits, hyvalue, _⟩ := ofPart_of_isDigits hb
  rw [← hxvalue, ← hyvalue] at h
  have hfields : (ofPart a).compare (ofPart b)
      = (Ord.compare x.length y.length).then ((compareTexts x y).then (compareTexts a b)) := by
    rw [hx, hy]
    rfl
  have hle : x.length ≤ y.length := by
    rcases hxlength with hone | hpow
    · rw [hone]
      exact List.length_pos_iff.2 hydigits.1
    · -- The longer number would have a first digit that outweighs the shorter one.
      have hlt : 10 ^ (x.length - 1) < 10 ^ y.length :=
        hpow.trans_lt (h.trans (Text.digitsValue_lt_pow y))
      have := (Nat.pow_lt_pow_iff_right (by decide)).1 hlt
      omega
  rw [hfields]
  rcases Nat.lt_or_eq_of_le hle with hlt | heq
  · rw [Nat.compare_eq_lt.2 hlt]
    rfl
  · rw [Nat.compare_eq_eq.2 heq, compareTexts_of_digitsValue_lt hxdigits.2 hydigits.2 heq h]
    rfl

end Chunk

namespace Chunks

/-- What two texts have in common in front does not matter. -/
theorem compare_append (common a b : Chunks) :
    compare (common ++ a) (common ++ b) = compare a b := by
  induction common with
  | nil => rfl
  | cons c common ih =>
    have hself : c.compare c = .eq := Std.ReflCmp.compare_self
    rw [compare, List.cons_append, List.cons_append, List.compareLex_cons_cons, hself]
    exact ih

end Chunks

namespace Text

/-- *Natural order goes by numbers*: different texts have different chunks, and of two texts that
    differ at a run of digits first, the one with the smaller number comes first, whatever stands
    behind the runs, and however many digits or zeros in front they have. -/
theorem chunks_natural :
    (Function.Injective fun s : Text => s.chunks.map Chunk.fields) ∧
    ∀ front a b s t : Text, (∀ c ∈ front.getLast?, isDecimal c = false) →
      a.IsDigits → b.IsDigits → a.digitsValue < b.digitsValue →
      (∀ c ∈ s.head?, isDecimal c = false) → (∀ c ∈ t.head?, isDecimal c = false) →
      Chunks.compare (front ++ a ++ s).chunks (front ++ b ++ t).chunks = .lt := by
  refine ⟨fun s t h => ?_, fun front a b s t hfront ha hb h hs ht => ?_⟩
  · have hchunks : s.chunks = t.chunks := List.map_injective_iff.2 Chunk.fields_injective h
    rw [← flatMap_text_chunks s, hchunks, flatMap_text_chunks t]
  · rw [chunks_digits ha hfront hs, chunks_digits hb hfront ht, Chunks.compare_append,
      Chunks.compare, List.compareLex_cons_cons, Chunk.compare_of_digitsValue_lt ha hb h]
    rfl

/-- A number with zeros in front is longer than a larger one, and the texts behind would compare
    the other way round. -/
theorem chunks_natural_of_zeros :
    IsDigits "0007" ∧ IsDigits "12" ∧ digitsValue "0007" < digitsValue "12" ∧
      (∀ c ∈ ("p-" : Text).getLast?, isDecimal c = false) ∧
      Chunks.compare (chunks "p-0007z9") (chunks "p-12a") = .lt := by
  have hseven : IsDigits "0007" := by decide
  have htwelve : IsDigits "12" := by decide
  have hlt : digitsValue "0007" < digitsValue "12" := by decide
  have hfront : ∀ c ∈ ("p-" : Text).getLast?, isDecimal c = false := by
    rintro c ⟨⟩
    rfl
  have hletter : ∀ c ∈ ("z9" : Text).head?, isDecimal c = false := by
    rintro c ⟨⟩
    rfl
  have hletter' : ∀ c ∈ ("a" : Text).head?, isDecimal c = false := by
    rintro c ⟨⟩
    rfl
  exact ⟨hseven, htwelve, hlt, hfront, chunks_natural.2 "p-" "0007" "12" "z9" "a" hfront hseven
    htwelve hlt hletter hletter'⟩

end Text

end UtilityCss
