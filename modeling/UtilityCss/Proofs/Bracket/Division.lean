import UtilityCss.Bracket.Nesting
import UtilityCss.Bracket.Token

/-!
# Cutting texts and joining them

Cutting a text at a separator loses nothing: the parts join back to it (`join_segments`). The
other way, texts that are joined fall apart into the same texts again (`segments_join`), if each
of them is balanced, holds no division of its own, and no backslash that could take the
separator after it.

Two scans have to agree for this. The strict one, which judges the balance, refuses what the
lenient one, which finds the divisions, passes over; where it does not refuse, both go through
the same states (`foldl_step_of_strictRun?`).
-/

namespace UtilityCss

namespace Nesting

variable {separator : Char} {limit : Int}

/-! ## One character more -/

theorem divide_cons {c : Char} (hc : c ≠ '\\') (n : Nesting) (rest : Text) :
    divide separator n (c :: rest)
      = if n.divides separator c then
          ([], (divide separator n rest).1 :: (divide separator n rest).2)
        else
          (c :: (divide separator (n.step c) rest).1, (divide separator (n.step c) rest).2) := by
  rw [divide]
  · intro h
    exact absurd h hc
  · intro c' rest' h
    exact absurd h hc

theorem strictRun?_cons {c : Char} (hc : c ≠ '\\') (n : Nesting) (rest : Text) :
    strictRun? limit n (c :: rest) = (n.strictStep? limit c).bind (strictRun? limit · rest) := by
  rw [strictRun?]
  · intro h
    exact absurd h hc
  · intro c' rest' h
    exact absurd h hc

/-- A character is no backslash if it neither ends a text as one nor takes another along. -/
theorem ne_backslash {c : Char} {rest : Text} (hlone : c = '\\' → rest = [] → False)
    (hpair : ∀ c' rest', c = '\\' → rest = c' :: rest' → False) : c ≠ '\\' := by
  rintro rfl
  cases rest with
  | nil => exact hlone rfl rfl
  | cons c' rest => exact hpair c' rest rfl rfl

/-- The innermost group ends with `c` exactly if `c` is the closer of its bracket. -/
theorem head?_closer_eq_some {stack : List Bracket} {c : Char} :
    stack.head?.map Bracket.closer = some c ↔
      ∃ b, Bracket.ofCloser? c = some b ∧ stack.head? = some b := by
  rw [Option.map_eq_some_iff]
  constructor
  · rintro ⟨b, hb, rfl⟩
    exact ⟨b, Bracket.ofCloser?_eq_some.2 rfl, hb⟩
  · rintro ⟨b, hc, hb⟩
    exact ⟨b, hb, (Bracket.ofCloser?_eq_some.1 hc).symm⟩

/-- Where the strict scan goes on, the lenient one goes the same way. -/
theorem step_of_strictStep? {n n' : Nesting} {c : Char} (h : n.strictStep? limit c = some n') :
    n.step c = n' := by
  unfold strictStep? at h
  unfold step
  cases hq : n.quote with
  | some q =>
    rw [hq] at h
    exact Option.some.inj h
  | none =>
    simp only [hq] at h ⊢
    split at h
    · next hc => rw [if_pos hc, Option.some.inj h]
    · next hc =>
      rw [if_neg hc]
      split at h
      · next b _ ho =>
        -- An opener, of which the strict scan only counts how many are open.
        rw [ho]
        split at h
        · exact Option.some.inj h
        · cases h
      · next b ho hb =>
        rw [ho]
        split at h
        · next hh =>
          dsimp only
          rw [if_pos (head?_closer_eq_some.2 ⟨b, hb, hh⟩), Option.some.inj h]
        · cases h
      · next ho hb =>
        rw [ho]
        dsimp only
        rw [if_neg, Option.some.inj h]
        intro hc'
        obtain ⟨b, hb', _⟩ := head?_closer_eq_some.1 hc'
        rw [hb] at hb'
        cases hb'

/-! ## Nothing is lost -/

theorem join_divide (separator : Char) (n : Nesting) (s : Text) :
    Text.join [separator] ((divide separator n s).1 :: (divide separator n s).2) = s := by
  fun_induction divide separator n s with
  | case1 n => rfl
  | case2 n => rfl
  | case3 n c rest part parts h ih =>
    rw [h] at ih
    rw [Text.join_cons_left, Text.join_cons_left, ih]
  | case4 n c rest _ _ hd part parts h ih =>
    rw [h] at ih
    -- What divides is the separator.
    have hc : c = separator := by
      simp only [divides, Bool.and_eq_true, decide_eq_true_eq] at hd
      exact hd.2
    rw [Text.join_cons_cons, ih, hc]
    rfl
  | case5 n c rest _ _ _ part parts h ih =>
    rw [h] at ih
    rw [Text.join_cons_left, ih]

end Nesting

/-- The parts of a text join back to it. -/
theorem Text.join_segments (s : Text) (separator : Char) :
    join [separator] (s.segments separator) = s :=
  Nesting.join_divide separator .outside s

namespace Nesting

variable {separator : Char} {limit : Int}

/-! ## Texts one after the other -/

/-- A text without division goes over into the part that the text after it begins with. -/
theorem divide_append {s : Text} (hs : '\\' ∉ s) {n : Nesting}
    (h : (divide separator n s).2 = []) (t : Text) :
    divide separator n (s ++ t)
      = (s ++ (divide separator (s.foldl step n) t).1,
          (divide separator (s.foldl step n) t).2) := by
  induction s generalizing n with
  | nil => rfl
  | cons c s ih =>
    have hc : c ≠ '\\' := fun hc => hs (hc ▸ List.mem_cons_self)
    rw [divide_cons hc] at h
    rw [List.cons_append, divide_cons hc]
    split at h
    · cases h
    · next hd =>
      rw [if_neg hd, ih (fun hm => hs (List.mem_cons_of_mem c hm)) h]
      rfl

theorem strictRun?_append {s : Text} (hs : '\\' ∉ s) (n : Nesting) (t : Text) :
    strictRun? limit n (s ++ t) = (strictRun? limit n s).bind (strictRun? limit · t) := by
  induction s generalizing n with
  | nil => rw [List.nil_append, strictRun?, Option.bind_some]
  | cons c s ih =>
    have hc : c ≠ '\\' := fun hc => hs (hc ▸ List.mem_cons_self)
    rw [List.cons_append, strictRun?_cons hc, strictRun?_cons hc, Option.bind_assoc]
    simp only [ih fun hm => hs (List.mem_cons_of_mem c hm)]

/-- Over a text without backslashes, the lenient scan ends where the strict one does. -/
theorem foldl_step_of_strictRun? {s : Text} (hs : '\\' ∉ s) {n n' : Nesting}
    (h : strictRun? limit n s = some n') : s.foldl step n = n' := by
  induction s generalizing n with
  | nil => exact Option.some.inj h
  | cons c s ih =>
    have hc : c ≠ '\\' := fun hc => hs (hc ▸ List.mem_cons_self)
    rw [strictRun?_cons hc, Option.bind_eq_some_iff] at h
    obtain ⟨n₁, hn₁, h⟩ := h
    rw [List.foldl_cons, step_of_strictStep? hn₁]
    exact ih (fun hm => hs (List.mem_cons_of_mem c hm)) h

/-! ## Brackets and quotes -/

theorem opener_ne_backslash (b : Bracket) : b.opener ≠ '\\' := by
  cases b <;> decide

theorem closer_ne_backslash (b : Bracket) : b.closer ≠ '\\' := by
  cases b <;> decide

theorem quote_ne_backslash {q : Char} (h : isQuote q = true) : q ≠ '\\' := by
  rintro rfl
  cases h

theorem strictStep?_opener {stack : List Bracket} {b : Bracket}
    (hroom : (stack.length + 1 : Int) ≤ limit) :
    strictStep? limit ⟨stack, none⟩ b.opener = some ⟨b :: stack, none⟩ := by
  cases b <;> simp [strictStep?, isQuote, Bracket.ofOpener?, Bracket.opener, hroom]

theorem strictStep?_closer (stack : List Bracket) (b : Bracket) :
    strictStep? limit ⟨stack, none⟩ b.closer
      = if stack.head? = some b then some ⟨stack.tail, none⟩ else none := by
  cases b <;>
    simp [strictStep?, isQuote, Bracket.ofOpener?, Bracket.ofCloser?, Bracket.closer]

/-! ## Plain texts -/

theorem plain_ne_backslash {c : Char} (h : Token.isPlain c = true) : c ≠ '\\' := by
  rintro rfl
  cases h

/-- A plain character changes nothing in a scan. -/
theorem strictStep?_of_isPlain {n : Nesting} (hn : n.quote.all isQuote = true) {c : Char}
    (hc : Token.isPlain c = true) : n.strictStep? limit c = some n := by
  simp only [Token.isPlain, Bool.and_eq_true, Option.isNone_iff_eq_none, Bool.not_eq_true'] at hc
  obtain ⟨⟨⟨ho, hcloser⟩, hquote⟩, _⟩ := hc
  rw [strictStep?]
  cases hq : n.quote with
  | some q =>
    have hne : c ≠ q := by
      rintro rfl
      rw [hq, Option.all_some, hquote] at hn
      cases hn
    dsimp only
    rw [if_neg hne]
  | none => simp [ho, hcloser, hquote]

theorem step_of_isPlain {n : Nesting} (hn : n.quote.all isQuote = true) {c : Char}
    (hc : Token.isPlain c = true) : n.step c = n :=
  step_of_strictStep? (@strictStep?_of_isPlain 0 n hn c hc)

/-- A scan opens no other quotes than quotes. -/
theorem all_isQuote_of_strictStep? {n n' : Nesting} (hn : n.quote.all isQuote = true) {c : Char}
    (h : n.strictStep? limit c = some n') : n'.quote.all isQuote = true := by
  unfold strictStep? at h
  grind

theorem all_isQuote_step {n : Nesting} (hn : n.quote.all isQuote = true) (c : Char) :
    (n.step c).quote.all isQuote = true := by
  unfold step
  grind

theorem strictRun?_plain {s : Text} (h : ∀ c ∈ s, Token.isPlain c = true) :
    strictRun? limit outside s = some outside := by
  induction s with
  | nil => rfl
  | cons c s ih =>
    have hc := h c List.mem_cons_self
    rw [strictRun?_cons (plain_ne_backslash hc), strictStep?_of_isPlain rfl hc,
      Option.bind_some]
    exact ih fun c' hc' => h c' (List.mem_cons_of_mem c hc')

theorem divide_plain {s : Text} (h : ∀ c ∈ s, Token.isPlain c = true) (hn : separator ∉ s) :
    divide separator outside s = (s, []) := by
  induction s with
  | nil => rfl
  | cons c s ih =>
    have hc := h c List.mem_cons_self
    have hd : ¬ outside.divides separator c = true := by
      simp only [divides, Bool.and_eq_true, decide_eq_true_eq]
      rintro ⟨_, rfl⟩
      exact hn List.mem_cons_self
    rw [divide_cons (plain_ne_backslash hc), if_neg hd, step_of_isPlain rfl hc,
      ih (fun c' hc' => h c' (List.mem_cons_of_mem c hc'))
        fun hm => hn (List.mem_cons_of_mem c hm)]

end Nesting

namespace Text

variable {separator : Char} {limit : Int}

theorem isBalanced_iff {s : Text} :
    s.isBalanced limit ↔ Nesting.strictRun? limit .outside s = some .outside := by
  rw [isBalanced, decide_eq_true_eq]

theorem isBalanced_plain {s : Text} (h : ∀ c ∈ s, Token.isPlain c = true) : s.isBalanced limit :=
  isBalanced_iff.2 (Nesting.strictRun?_plain h)

theorem segments_plain {s : Text} (h : ∀ c ∈ s, Token.isPlain c = true) (hn : separator ∉ s) :
    s.segments separator = [s] := by
  rw [segments, Nesting.divide_plain h hn]

theorem isBalanced_append {s t : Text} (hs : '\\' ∉ s) (hb : s.isBalanced limit)
    (ht : t.isBalanced limit) : (s ++ t).isBalanced limit := by
  rw [isBalanced_iff] at *
  rw [Nesting.strictRun?_append hs, hb, Option.bind_some, ht]

/-- A text that is balanced and undivided is cut off at the separator behind it. -/
theorem segments_append {s : Text} (hs : '\\' ∉ s) (hb : s.isBalanced limit)
    (hd : s.segments separator = [s]) (hp : Token.isPlain separator = true) (t : Text) :
    (s ++ separator :: t).segments separator = s :: t.segments separator := by
  have hdiv : (Nesting.divide separator .outside s).2 = [] := (List.cons.inj hd).2
  have hend := Nesting.foldl_step_of_strictRun? hs (isBalanced_iff.1 hb)
  have hsep : Nesting.outside.divides separator separator = true := by
    simp only [Token.isPlain, Bool.and_eq_true] at hp
    simp only [Nesting.divides, Bool.and_eq_true, decide_eq_true_eq]
    exact ⟨⟨trivial, hp.1.1.1⟩, trivial⟩
  rw [segments, Nesting.divide_append hs hdiv, hend,
    Nesting.divide_cons (Nesting.plain_ne_backslash hp), if_pos hsep, List.append_nil]
  rfl

theorem segments_plain_append {s : Text} (h : ∀ c ∈ s, Token.isPlain c = true)
    (hn : separator ∉ s) (hp : Token.isPlain separator = true) (t : Text) :
    (s ++ separator :: t).segments separator = s :: t.segments separator :=
  segments_append (fun hc => Nesting.plain_ne_backslash (h _ hc) rfl)
    (isBalanced_plain h : s.isBalanced 0) (segments_plain h hn) hp t

/-- Texts that are balanced and undivided fall apart again when they are joined; the last may
    be any undivided text. -/
theorem segments_join {parts : List Text} {last : Text} (hp : Token.isPlain separator = true)
    (h : ∀ s ∈ parts, '\\' ∉ s ∧ s.isBalanced limit ∧ s.segments separator = [s])
    (hl : last.segments separator = [last]) :
    (join [separator] (parts ++ [last])).segments separator = parts ++ [last] := by
  induction parts with
  | nil => rw [List.nil_append, join_singleton, hl]
  | cons s parts ih =>
    obtain ⟨hs, hb, hd⟩ := h s List.mem_cons_self
    have ih := ih fun s' hs' => h s' (List.mem_cons_of_mem s hs')
    obtain ⟨part, rest, hr⟩ := List.exists_cons_of_ne_nil
      (List.append_ne_nil_of_right_ne_nil parts (List.cons_ne_nil last []))
    rw [List.cons_append, hr, join_cons_cons, List.append_assoc, List.singleton_append,
      segments_append hs hb hd hp, ← hr, ih]

theorem isBalanced_join {parts : List Text} {last : Text} (hp : Token.isPlain separator = true)
    (h : ∀ s ∈ parts, '\\' ∉ s ∧ s.isBalanced limit) (hl : last.isBalanced limit) :
    (join [separator] (parts ++ [last])).isBalanced limit := by
  induction parts with
  | nil => rwa [List.nil_append, join_singleton]
  | cons s parts ih =>
    obtain ⟨hs, hb⟩ := h s List.mem_cons_self
    have ih := ih fun s' hs' => h s' (List.mem_cons_of_mem s hs')
    obtain ⟨part, rest, hr⟩ := List.exists_cons_of_ne_nil
      (List.append_ne_nil_of_right_ne_nil parts (List.cons_ne_nil last []))
    rw [hr] at ih
    rw [List.cons_append, hr, join_cons_cons, List.append_assoc]
    refine isBalanced_append hs hb (isBalanced_append ?_ (isBalanced_plain ?_) ih)
    · rw [List.mem_singleton]
      exact (Nesting.plain_ne_backslash hp).symm
    · intro c hc
      rwa [List.mem_singleton.1 hc]

end Text

end UtilityCss
