import UtilityCss.Proofs.Bracket.Kept

/-!
# Decoding in one pass

What decoding does to a value, told without tokens. A pass goes over the characters of the value
from left to right and copies them, but for underscores: a bare one becomes a space, and one behind
a backslash loses the backslash. Nothing is changed while the pass is in a quoted part, or in a
group in round brackets whose opener stands directly behind a run that ends in `url`, with all
groups inside of it. So a pass remembers the open groups, the open quote, and the run it is in.

* `Pass.respace_of_next?`: what a pass makes of one token;
* `Text.decode_eq_respaced`: a value is decoded to what the pass makes of it.
-/

namespace UtilityCss

/-- What a pass over a value knows at one point. -/
structure Pass where
  /-- Of every open group, the innermost first: whether its content is copied as it is. -/
  groups : List Bool
  /-- The quote that is open, if any. -/
  quote : Option Char
  /-- How the run is spelled that ends at this point. It is empty behind a bracket and behind a
      quoted part. -/
  run : Text
  deriving DecidableEq, Repr

namespace Pass

/-- The start of a value. -/
def start : Pass := ⟨[], none, []⟩

/-- Whether the pass copies all characters as they are. -/
def isVerbatim (p : Pass) : Bool :=
  p.quote.isSome || p.groups.any id

/-- Whether a group that opens at this point stands behind `url`, in whatever case. -/
def isBehindUrl (p : Pass) : Bool :=
  (Text.lower p.run).endsWith "url"

/-- The pass behind one more part of a run. Within quotes there are no runs. -/
def extend (p : Pass) (part : Text) : Pass :=
  match p.quote with
  | some _ => p
  | none => { p with run := p.run ++ part }

/-- The pass behind one more character. -/
def step (p : Pass) (c : Char) : Pass :=
  match p.quote with
  | some q => if c = q then { p with quote := none } else p
  | none =>
    if isQuote c then { p with quote := some c, run := [] }
    else match Bracket.ofOpener? c, Bracket.ofCloser? c with
      | some b, _ => ⟨(b = .round && p.isBehindUrl) :: p.groups, none, []⟩
      | none, some _ => ⟨p.groups.tail, none, []⟩
      | none, none => p.extend [c]

/-- The rest of a value with its underscores changed. -/
def respace : Pass → Text → Text
  | _, [] => []
  | p, '\\' :: c :: rest =>
    (if !p.isVerbatim && c = '_' then ['_'] else ['\\', c]) ++ respace (p.extend ['\\', c]) rest
  | p, c :: rest => (if !p.isVerbatim && c = '_' then ' ' else c) :: respace (p.step c) rest

end Pass

/-- A value with its underscores changed in one pass. -/
def Text.respaced (s : Text) : Text :=
  Pass.start.respace s

namespace Pass

open Token

variable {p : Pass} {s after : Text} {t : Token}

/-! ## Characters -/

theorem respace_escaped (p : Pass) (c : Char) (rest : Text) : p.respace ('\\' :: c :: rest)
    = (if !p.isVerbatim && c = '_' then ['_'] else ['\\', c])
      ++ (p.extend ['\\', c]).respace rest := by
  rw [respace]

theorem respace_cons {c : Char} (hc : c ≠ '\\') (p : Pass) (rest : Text) : p.respace (c :: rest)
    = (if !p.isVerbatim && c = '_' then ' ' else c) :: (p.step c).respace rest := by
  rw [respace]
  rintro c' rest' rfl
  exact absurd rfl hc

/-- A sign of its own is copied everywhere. -/
theorem respace_sign {c : Char} (hc : isPlain c = false) (hbackslash : c ≠ '\\') (p : Pass)
    (rest : Text) : p.respace (c :: rest) = c :: (p.step c).respace rest := by
  have hunderscore : c ≠ '_' := by
    rintro rfl
    cases hc
  rw [respace_cons hbackslash, decide_eq_false hunderscore, Bool.and_false]
  rfl

/-! ## Tokens -/

/-- The surroundings that a pass is in outside of quotes. -/
def surroundings (p : Pass) : Surroundings :=
  ⟨p.groups, p.isBehindUrl⟩

/-- The pass behind one more token. -/
def behind (p : Pass) : Token → Pass
  | .run raw => p.extend raw
  | .quoted _ => ⟨p.groups, none, []⟩
  | .opener b => ⟨(b = .round && p.isBehindUrl) :: p.groups, none, []⟩
  | .closer _ => ⟨p.groups.tail, none, []⟩

theorem isVerbatim_eq (hquote : p.quote = none) : p.isVerbatim = p.surroundings.isKept := by
  rw [isVerbatim, hquote]
  rfl

theorem quote_extend (p : Pass) (part : Text) : (p.extend part).quote = p.quote := by
  rw [extend]
  split
  · rfl
  · rfl

theorem isKept_extend (p : Pass) (part : Text) :
    (p.extend part).surroundings.isKept = p.surroundings.isKept := by
  rw [extend]
  split
  · rfl
  · rfl

theorem extend_extend (p : Pass) (part part' : Text) :
    (p.extend part).extend part' = p.extend (part ++ part') := by
  obtain ⟨groups, quote, run⟩ := p
  cases quote with
  | none => simp only [extend, List.append_assoc]
  | some q => rfl

theorem step_of_isPlain {c : Char} (hc : isPlain c = true) (hquote : p.quote = none) :
    p.step c = p.extend [c] := by
  simp only [isPlain, Bool.and_eq_true, Bool.not_eq_true', Option.isNone_iff_eq_none] at hc
  obtain ⟨⟨⟨hopener, hcloser⟩, hquotes⟩, _⟩ := hc
  rw [step, hquote, hopener, hcloser]
  dsimp only
  rw [hquotes, if_neg Bool.false_ne_true]

theorem step_of_isQuote {q : Char} (hq : isQuote q = true) (hquote : p.quote = none) :
    p.step q = ⟨p.groups, some q, []⟩ := by
  rw [step, hquote]
  exact if_pos hq

/-- A run is decoded, unless it is copied. -/
theorem respace_run {raw : Text} (h : takeRun raw = (raw, [])) (rest : Text)
    (hquote : p.quote = none) : p.respace (raw ++ rest)
      = ((Token.run raw).decoded p.surroundings.isKept).raw ++ (p.extend raw).respace rest := by
  refine run_induction (motive := fun raw => ∀ p : Pass, p.quote = none → p.respace (raw ++ rest)
      = ((Token.run raw).decoded p.surroundings.isKept).raw ++ (p.extend raw).respace rest)
    (fun p hquote => ?_) (fun c raw _ ih p hquote => ?_) (fun c raw hc ih p hquote => ?_) h p hquote
  · obtain ⟨groups, _, run⟩ := p
    cases hquote
    simp [Token.decoded, Token.raw, decodeRun, extend]
  · rw [List.cons_append, List.cons_append, respace_escaped,
      ih _ ((quote_extend p _).trans hquote), extend_extend, isKept_extend, isVerbatim_eq hquote]
    cases p.surroundings.isKept with
    | true => rfl
    | false => by_cases hc : c = '_' <;> simp [Token.decoded, Token.raw, decodeRun, hc]
  · have hbackslash := Nesting.plain_ne_backslash hc
    rw [List.cons_append, respace_cons hbackslash, step_of_isPlain hc hquote,
      ih _ ((quote_extend p _).trans hquote), extend_extend, isKept_extend, isVerbatim_eq hquote]
    cases p.surroundings.isKept with
    | true => rfl
    | false => simp [Token.decoded, Token.raw, decodeRun_cons_of_ne hbackslash]

/-- A quoted part is copied, from behind its first quote. -/
theorem respace_takeQuoted {q : Char} (hq : isQuote q = true) {part : Text}
    (h : takeQuoted q s = some (part, after)) (groups : List Bool) :
    respace ⟨groups, some q, []⟩ s = part ++ respace ⟨groups, none, []⟩ after := by
  fun_induction takeQuoted q s generalizing part with
  | case1 => cases h
  | case2 => cases h
  | case3 => cases h
  | case4 c rest _ part' after' hrest ih =>
    cases h
    rw [respace_escaped, List.cons_append, List.cons_append, ← ih hrest]
    rfl
  | case5 =>
    cases h
    have hbackslash := Nesting.quote_ne_backslash hq
    rw [respace_sign (Closed.not_isPlain_of_isQuote hq) hbackslash, step]
    simp
  | case6 => cases h
  | case7 => cases h
  | case8 c rest _ hcq hbackslash part' after' hrest ih =>
    cases h
    rw [respace_cons hbackslash, List.cons_append, ← ih hrest]
    simp [step, hcq, isVerbatim]

/-- What a pass makes of one token. -/
theorem respace_of_next? (h : next? s = some (t, after)) (hquote : p.quote = none) :
    p.respace s = (t.decoded p.surroundings.isKept).raw ++ (p.behind t).respace after := by
  have happend := next?_append h
  cases t with
  | run raw =>
    have hself := takeRun_self s
    rw [(next?_run.1 h).1] at hself
    rw [← happend]
    exact respace_run hself after hquote
  | quoted raw =>
    obtain ⟨q, rest, part, rfl, hq, hpart, rfl⟩ := next?_quoted.1 h
    have hbackslash := Nesting.quote_ne_backslash hq
    rw [respace_sign (Closed.not_isPlain_of_isQuote hq) hbackslash, step_of_isQuote hq hquote,
      respace_takeQuoted hq hpart]
    rfl
  | opener b =>
    rw [← happend, Token.raw, List.singleton_append,
      respace_sign (Closed.not_isPlain_opener b) (Nesting.opener_ne_backslash b)]
    have hstep : p.step b.opener = p.behind (.opener b) := by
      rw [step, hquote]
      cases b <;> rfl
    rw [hstep]
    rfl
  | closer b =>
    rw [← happend, Token.raw, List.singleton_append,
      respace_sign (Closed.not_isPlain_closer b) (Nesting.closer_ne_backslash b)]
    have hstep : p.step b.closer = p.behind (.closer b) := by
      rw [step, hquote]
      cases b <;> rfl
    rw [hstep]
    rfl

theorem quote_behind (hquote : p.quote = none) (t : Token) : (p.behind t).quote = none := by
  cases t with
  | run raw => exact (quote_extend p raw).trans hquote
  | quoted | opener | closer => rfl

/-- Behind a token the pass is in the surroundings of the next, if it does not go on with a run. -/
theorem surroundings_behind (hquote : p.quote = none) (hrun : t.isRun = true → p.run = []) :
    (p.behind t).surroundings = p.surroundings.next t := by
  cases t with
  | run raw =>
    rw [behind, extend, hquote]
    dsimp only
    rw [hrun rfl]
    rfl
  | quoted | opener | closer => rfl

/-- A pass decodes one token after the other. -/
theorem respace_tokenize (hquote : p.quote = none)
    (hrun : p.run ≠ [] → takeRun s = ([], s)) (hrest : (tokenize s).2 = []) : p.respace s
      = (marked p.surroundings (tokenize s).1).flatMap fun m => (m.2.decoded m.1).raw := by
  fun_induction tokenize s generalizing p with
  | case1 s =>
    cases hrest
    rfl
  | case2 s t after h _ ts rest he ih =>
    rw [he] at ih
    -- Runs are as long as possible, so none begins where one has just ended.
    have hempty (ht : t.isRun = true) : p.run = [] := by
      by_contra hne
      cases t with
      | run raw =>
        obtain ⟨hraw, hnil⟩ := next?_run.1 h
        rw [hrun hne] at hraw
        exact hnil (Prod.mk.inj hraw).1.symm
      | quoted | opener | closer => cases ht
    have hnext (hne : (p.behind t).run ≠ []) : takeRun after = ([], after) := by
      cases t with
      | run raw =>
        have hstop := takeRun_after s
        rwa [(next?_run.1 h).1] at hstop
      | quoted | opener | closer => exact absurd rfl hne
    rw [marked, List.flatMap_cons, ← surroundings_behind hquote hempty, respace_of_next? h hquote,
      ih (quote_behind hquote t) hnext hrest]

end Pass

/-- A value is decoded to what one pass over it makes of it. -/
theorem Text.decode_eq_respaced {s value : Text} (h : s.decode = .ok value) :
    value = s.respaced := by
  obtain ⟨hrest, _, rfl⟩ := decode_eq_ok_iff.1 h
  have hstart : Pass.start.run ≠ [] → Token.takeRun s = ([], s) := fun hne => absurd rfl hne
  rw [Token.decodedRow, List.flatMap_map, respaced, Pass.respace_tokenize rfl hstart hrest]
  rfl

/-- Groups behind `url`, with a group inside, with a quoted part between, and with an escaped letter
    in `url`. -/
theorem Text.decode_eq_respaced_of_url :
    Text.decode "a_(c\\_d)_Url(x_(z_w))_url\"p_q\"(r_s)_u\\rl(\\_)"
        = .ok "a (c_d) Url(x_(z_w)) url\"p_q\"(r s) u\\rl(_)" ∧
      "a (c_d) Url(x_(z_w)) url\"p_q\"(r s) u\\rl(_)".toList
        = Text.respaced "a_(c\\_d)_Url(x_(z_w))_url\"p_q\"(r_s)_u\\rl(\\_)" := by
  have h : Text.decode "a_(c\\_d)_Url(x_(z_w))_url\"p_q\"(r_s)_u\\rl(\\_)"
      = .ok "a (c_d) Url(x_(z_w)) url\"p_q\"(r s) u\\rl(_)" := by decide +kernel
  exact ⟨h, decode_eq_respaced h⟩

end UtilityCss
