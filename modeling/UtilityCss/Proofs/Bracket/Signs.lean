import Mathlib.Data.List.Basic
import UtilityCss.Bracket.Value
import UtilityCss.Proofs.Bracket.Closed
import UtilityCss.Proofs.Bracket.Division

/-!
# The signs of a text

The *signs* of a text are its tokens without the runs: the brackets and the quoted parts. Where
two texts meet, two runs may become one, but the signs stand one after the other
(`Text.Gives.append`). Whether a text can be decoded shows in its signs alone, and closed texts
can always be decoded.

* `Text.Gives`: a text gives its signs, whatever follows it;
* `Text.exists_decode_iff`: which texts can be decoded;
* `Closed.exists_decode`: closed texts can.
-/

namespace UtilityCss

namespace Token

/-- Whether a token is a run. -/
def isRun : Token → Bool
  | run _ => true
  | _ => false

/-- The text of a quoted token, from quote to quote. -/
def quoted? : Token → Option Text
  | quoted raw => some raw
  | _ => none

/-- The brackets that stand open after one more token, the innermost first, unless it closes
    what is not open. -/
def nest? (stack : List Bracket) : Token → Option (List Bracket)
  | opener b => some (b :: stack)
  | closer b => if stack.head? = some b then some stack.tail else none
  | _ => some stack

end Token

namespace Text

/-- The signs of a text, and its rest where no token starts. -/
def scan (s : Text) : List Token × Text :=
  ((Token.tokenize s).1.filter (!·.isRun), (Token.tokenize s).2)

/-- The quoted parts of a text, each from quote to quote. -/
def quotedParts (s : Text) : List Text :=
  (Token.tokenize s).1.filterMap Token.quoted?

/-- A text gives the signs `ts`, and what follows gives its own. -/
def Gives (s : Text) (ts : List Token) : Prop :=
  ∀ t : Text, (s ++ t).scan = (ts ++ t.scan.1, t.scan.2)

theorem scan_nil : scan [] = ([], []) := by
  rw [scan, Token.tokenize]
  rfl

theorem quotedParts_eq (s : Text) : s.quotedParts = s.scan.1.filterMap Token.quoted? := by
  rw [scan, List.filterMap_filter]
  refine List.filterMap_congr fun t _ => ?_
  cases t <;> rfl

end Text

/-! ## One token more -/

namespace Token

variable {s after : Text} {t : Token}

theorem tokenize_of_next? (h : next? s = some (t, after)) :
    tokenize s = (t :: (tokenize after).1, (tokenize after).2) := by
  rw [tokenize]
  split
  · next h' =>
    rw [h] at h'
    cases h'
  · next h' =>
    rw [h] at h'
    cases h'
    rfl

theorem tokenize_of_next?_eq_none (h : next? s = none) : tokenize s = ([], s) := by
  rw [tokenize]
  split
  · rfl
  · next h' =>
    rw [h] at h'
    cases h'

theorem scan_of_next? (h : next? s = some (t, after)) :
    s.scan = (if t.isRun then after.scan.1 else t :: after.scan.1, after.scan.2) := by
  rw [Text.scan, tokenize_of_next? h]
  cases t <;> rfl

/-- A character that runs begin with begins no other token. -/
theorem next?_of_isPlain {c : Char} (hc : isPlain c = true ∨ c = '\\') (s : Text) :
    next? (c :: s) = if (takeRun (c :: s)).1 = [] then none
      else some (run (takeRun (c :: s)).1, (takeRun (c :: s)).2) := by
  have hsign : Bracket.ofOpener? c = none ∧ Bracket.ofCloser? c = none ∧ isQuote c = false := by
    rcases hc with hc | rfl
    · simp only [isPlain, Bool.and_eq_true, Option.isNone_iff_eq_none, Bool.not_eq_true'] at hc
      exact ⟨hc.1.1.1, hc.1.1.2, hc.1.2⟩
    · exact ⟨rfl, rfl, rfl⟩
  rw [next?, hsign.1, hsign.2.1, hsign.2.2]
  dsimp only
  rw [if_neg Bool.false_ne_true]
  split
  · next h => rw [h, if_pos rfl]
  · next part after hne h =>
    rw [h, if_neg hne]

theorem takeRun_cons {c : Char} (hc : isPlain c = true) (s : Text) :
    takeRun (c :: s) = (c :: (takeRun s).1, (takeRun s).2) := by
  rw [takeRun, if_pos hc]
  · rintro c' rest rfl
    cases hc

theorem takeRun_escaped {c : Char} (hc : c ≠ '\n') (s : Text) :
    takeRun ('\\' :: c :: s) = ('\\' :: c :: (takeRun s).1, (takeRun s).2) := by
  rw [takeRun, if_neg hc]

theorem takeRun_stop {c : Char} (hc : isPlain c = false) {s : Text} (hs : c = '\\' → s = []) :
    takeRun (c :: s) = ([], c :: s) := by
  rw [takeRun, if_neg (ne_true_of_eq_false hc)]
  rintro c' rest rfl rfl
  cases hs rfl

theorem takeQuoted_close {q : Char} (hq : isQuote q = true) (s : Text) :
    takeQuoted q (q :: s) = some ([q], s) := by
  rw [takeQuoted, if_pos rfl]
  rintro c rest rfl
  cases hq

theorem takeQuoted_cons {q c : Char} (hcq : c ≠ q) (hc : c ≠ '\\') (s : Text) :
    takeQuoted q (c :: s) = (takeQuoted q s).map fun p => (c :: p.1, p.2) := by
  rw [takeQuoted, if_neg hcq, if_neg hc]
  · cases takeQuoted q s <;> rfl
  · rintro c' rest rfl
    exact absurd rfl hc

theorem takeQuoted_escaped {q c : Char} (hc : c ≠ '\n') (s : Text) :
    takeQuoted q ('\\' :: c :: s) = (takeQuoted q s).map fun p => ('\\' :: c :: p.1, p.2) := by
  rw [takeQuoted, if_neg hc]
  cases takeQuoted q s <;> rfl

/-- A run that is not empty is the token in front. -/
theorem next?_run {raw : Text} :
    next? s = some (run raw, after) ↔ takeRun s = (raw, after) ∧ raw ≠ [] := by
  cases s with
  | nil => simp +contextual [next?, takeRun, eq_comm]
  | cons c rest =>
    by_cases hc : isPlain c = true ∨ c = '\\'
    · rw [next?_of_isPlain hc]
      cases h : takeRun (c :: rest) with
      | mk part after' => grind
    · rw [not_or] at hc
      have hstop := takeRun_stop (eq_false_of_ne_true hc.1) (s := rest) fun hb => absurd hb hc.2
      rw [next?, hstop]
      grind

/-- A run in front has no sign. -/
theorem scan_takeRun (s : Text) : (takeRun s).2.scan = s.scan := by
  by_cases hnil : (takeRun s).1 = []
  · have h := takeRun_append s
    rw [hnil, List.nil_append] at h
    rw [h]
  · rw [scan_of_next? (next?_run.2 ⟨rfl, hnil⟩)]
    rfl

end Token

namespace Text

open Token

theorem scan_plain {c : Char} (hc : isPlain c = true) (s : Text) : scan (c :: s) = s.scan := by
  rw [← scan_takeRun (c :: s), takeRun_cons hc, scan_takeRun]

theorem scan_escaped {c : Char} (hc : c ≠ '\n') (s : Text) :
    scan ('\\' :: c :: s) = s.scan := by
  rw [← scan_takeRun ('\\' :: c :: s), takeRun_escaped hc, scan_takeRun]

/-- A quoted part ends where its quote closes, whatever follows. -/
theorem takeQuoted_of_quotedRest {q : Char} (hq : isQuote q = true) {inside : Text}
    (h : QuotedRest q inside) (s : Text) : takeQuoted q (inside ++ s) = some (inside, s) := by
  induction h with
  | close => exact takeQuoted_close hq s
  | char hcq hbackslash _ ih =>
    rw [List.cons_append, takeQuoted_cons hcq hbackslash, ih]
    rfl
  | @escaped c rest hc _ ih =>
    have hbreak : c ≠ '\n' := by
      rintro rfl
      cases hc
    rw [List.cons_append, List.cons_append, takeQuoted_escaped hbreak, ih]
    rfl

namespace Gives

variable {s t : Text} {ts us : List Token}

theorem nil : Gives [] [] := fun _ => rfl

theorem append (hs : s.Gives ts) (ht : t.Gives us) : (s ++ t).Gives (ts ++ us) := fun u => by
  rw [List.append_assoc, hs, ht, List.append_assoc]

theorem plain {c : Char} (hc : isPlain c = true) : Gives [c] [] := scan_plain hc

theorem escaped {c : Char} (hc : isBlank c = false) : Gives ['\\', c] [] := by
  refine scan_escaped ?_
  rintro rfl
  cases hc

theorem opener (b : Bracket) : Gives [b.opener] [.opener b] := fun t => by
  have hnext : next? (b.opener :: t) = some (.opener b, t) := by
    rw [next?, Bracket.ofOpener?_eq_some.2 rfl]
  rw [List.singleton_append, scan_of_next? hnext]
  rfl

theorem closer (b : Bracket) : Gives [b.closer] [.closer b] := fun t => by
  have hopener : Bracket.ofOpener? b.closer = none := by
    cases b <;> rfl
  have hnext : next? (b.closer :: t) = some (.closer b, t) := by
    rw [next?, hopener, Bracket.ofCloser?_eq_some.2 rfl]
  rw [List.singleton_append, scan_of_next? hnext]
  rfl

theorem quoted {q : Char} (hq : isQuote q = true) {inside : Text} (h : QuotedRest q inside) :
    Gives (q :: inside) [.quoted (q :: inside)] := fun t => by
  have hopener : Bracket.ofOpener? q = none ∧ Bracket.ofCloser? q = none := by
    rw [isQuote, Bool.or_eq_true, decide_eq_true_eq, decide_eq_true_eq] at hq
    rcases hq with rfl | rfl <;> exact ⟨rfl, rfl⟩
  have hnext : next? (q :: (inside ++ t)) = some (.quoted (q :: inside), t) := by
    rw [next?, hopener.1, hopener.2]
    dsimp only
    rw [if_pos hq, takeQuoted_of_quotedRest hq h]
  rw [List.cons_append, scan_of_next? hnext]
  rfl

theorem enclose (b : Bracket) (h : s.Gives ts) :
    (b.enclose s).Gives ([.opener b] ++ ts ++ [.closer b]) :=
  ((opener b).append h).append (closer b)

theorem scan_eq (h : s.Gives ts) : s.scan = (ts, []) := by
  have h := h []
  rw [List.append_nil] at h
  rw [h, scan_nil, List.append_nil]

theorem quotedParts_eq (h : s.Gives ts) : s.quotedParts = ts.filterMap quoted? := by
  rw [Text.quotedParts_eq, h.scan_eq]

theorem quotedParts_append (h : s.Gives ts) (t : Text) :
    (s ++ t).quotedParts = ts.filterMap quoted? ++ t.quotedParts := by
  rw [Text.quotedParts_eq, h, List.filterMap_append, ← Text.quotedParts_eq]

end Gives

end Text

/-! ## Closed texts -/

/-- A closed text gives signs that leave open what is open. -/
theorem Closed.exists_gives {s : Text} (h : Closed s) :
    ∃ ts, s.Gives ts ∧ ∀ stack, ts.foldlM Token.nest? stack = some stack := by
  induction h with
  | nil => exact ⟨[], .nil, fun _ => rfl⟩
  | plain hc _ ih =>
    obtain ⟨ts, hgives, hnest⟩ := ih
    exact ⟨ts, Text.Gives.append (.plain hc) hgives, hnest⟩
  | @escaped c rest hc _ ih =>
    obtain ⟨ts, hgives, hnest⟩ := ih
    exact ⟨ts, Text.Gives.append (.escaped hc) hgives, hnest⟩
  | quoted hq hinside _ ih =>
    obtain ⟨ts, hgives, hnest⟩ := ih
    exact ⟨_, Text.Gives.append (.quoted hq hinside) hgives, fun stack => hnest stack⟩
  | @group b inside rest _ _ ihinside ih =>
    obtain ⟨ts, hgives, hnest⟩ := ihinside
    obtain ⟨us, hrest, hnest'⟩ := ih
    refine ⟨_, (hgives.enclose b).append hrest, fun stack => ?_⟩
    simp [List.foldlM_append, Token.nest?, hnest, hnest']

/-! ## Decoding -/

theorem Token.foldlM_nest?_filter (stack : List Bracket) (ts : List Token) :
    (ts.filter (!·.isRun)).foldlM nest? stack = ts.foldlM nest? stack := by
  induction ts generalizing stack with
  | nil => rfl
  | cons t ts ih =>
    cases t with
    | run | quoted => exact ih stack
    | opener b => exact ih (b :: stack)
    | closer b =>
      rw [List.filter_cons_of_pos rfl, List.foldlM_cons, List.foldlM_cons]
      exact congrArg _ (funext ih)

namespace Decoding

variable {r r' : Decoding} {rest last before value : Text} {ts : List Token}

theorem finish_eq_ok : finish rest r last before ts = .ok value ↔
    rest = [] ∧ ∃ content, ts.foldlM step? r = some ⟨[], content⟩ ∧ content.decoded = value := by
  induction ts generalizing r last before with
  | nil =>
    rw [finish]
    obtain ⟨outer, content⟩ := r
    cases rest <;> cases outer <;> simp [List.foldlM_nil]
  | cons t ts ih =>
    rw [finish, List.foldlM_cons]
    cases h : r.step? t with
    | none => simp
    | some r' => simpa using ih

/-- The brackets that stand open go by the tokens alone. -/
theorem map_fst_step? (r : Decoding) (t : Token) :
    (r.step? t).map (·.outer.map Prod.fst) = Token.nest? (r.outer.map Prod.fst) t := by
  obtain ⟨outer, content⟩ := r
  cases t with
  | run | quoted | opener => rfl
  | closer b =>
    cases outer with
    | nil => rfl
    | cons p outer =>
      rw [step?, Token.nest?]
      by_cases hb : p.1 = b <;> simp [hb]

theorem map_fst_foldlM (r : Decoding) (ts : List Token) :
    (ts.foldlM step? r).map (·.outer.map Prod.fst)
      = ts.foldlM Token.nest? (r.outer.map Prod.fst) := by
  induction ts generalizing r with
  | nil => rfl
  | cons t ts ih =>
    rw [List.foldlM_cons, List.foldlM_cons, ← map_fst_step?]
    cases r.step? t with
    | none => rfl
    | some r' => exact ih r'

end Decoding

namespace Text

theorem decode_eq_ok {s value : Text} : s.decode = .ok value ↔ (Token.tokenize s).2 = [] ∧
    ∃ content, (Token.tokenize s).1.foldlM Decoding.step? .start = some ⟨[], content⟩ ∧
      content.decoded = value :=
  Decoding.finish_eq_ok

/-- A text can be decoded if a token starts everywhere, and its groups close in order. -/
theorem exists_decode_iff {s : Text} : (∃ value, s.decode = .ok value) ↔
    s.scan.2 = [] ∧ s.scan.1.foldlM Token.nest? [] = some [] := by
  have hopen : _ = (Token.tokenize s).1.foldlM Token.nest? [] :=
    Decoding.map_fst_foldlM .start (Token.tokenize s).1
  simp only [decode_eq_ok, exists_and_left, scan, Token.foldlM_nest?_filter]
  refine and_congr_right fun _ => ?_
  rw [← hopen, Option.map_eq_some_iff]
  constructor
  · rintro ⟨_, content, h, _⟩
    exact ⟨_, h, rfl⟩
  · rintro ⟨⟨outer, content⟩, h, houter⟩
    rw [List.map_eq_nil_iff] at houter
    cases houter
    exact ⟨_, content, h, rfl⟩

end Text

/-- Closed texts can be decoded. -/
theorem Closed.exists_decode {s : Text} (h : Closed s) : ∃ value, s.decode = .ok value := by
  obtain ⟨ts, hgives, hnest⟩ := h.exists_gives
  rw [Text.exists_decode_iff, hgives.scan_eq]
  exact ⟨rfl, hnest []⟩

end UtilityCss
