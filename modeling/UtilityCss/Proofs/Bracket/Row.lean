import UtilityCss.Proofs.Bracket.Signs

/-!
# Rows of tokens

When a text is put together from tokens, it falls into the same tokens again, if each of them is
read from its own text and no run stands directly behind another (`Token.Row`). The tokens of a
text are such a row, and they stay one when every run gives way to another run and every quoted
part to another quoted part.

* `Token.row_tokenize`: the tokens of a text are a row;
* `Token.tokenize_of_row`: the text of a row has its tokens.
-/

namespace UtilityCss

namespace Token

/-! ## Runs and quoted parts in front of other texts -/

/-- What is left of a text behind a run does not go on with the run. -/
theorem takeRun_after (s : Text) : takeRun (takeRun s).2 = ([], (takeRun s).2) := by
  fun_induction takeRun s with
  | case1 => rfl
  | case2 => rfl
  | case3 c rest _ part after h ih => rwa [h] at ih
  | case4 c rest _ _ part after h ih => rwa [h] at ih
  | case5 c rest hne hc =>
    refine takeRun_stop (eq_false_of_ne_true hc) fun hbackslash => ?_
    cases rest with
    | nil => rfl
    | cons c' rest => exact absurd rfl (hne c' rest hbackslash)

/-- A text that is one run is put together from plain characters and characters behind a
    backslash. -/
@[elab_as_elim] theorem run_induction {motive : Text → Prop} (nil : motive [])
    (escaped : ∀ c rest, c ≠ '\n' → motive rest → motive ('\\' :: c :: rest))
    (plain : ∀ c rest, isPlain c = true → motive rest → motive (c :: rest)) {s : Text}
    (h : takeRun s = (s, [])) : motive s := by
  fun_induction takeRun s with
  | case1 => exact nil
  | case2 => cases h
  | case3 c rest hc part after he ih =>
    simp only [Prod.mk.injEq, List.cons.injEq, true_and] at h
    exact escaped c rest hc (ih (by rw [he, h.1, h.2]))
  | case4 c rest _ hc part after he ih =>
    simp only [Prod.mk.injEq, List.cons.injEq, true_and] at h
    exact plain c rest hc (ih (by rw [he, h.1, h.2]))
  | case5 => cases h

/-- A text that is one run goes on with the run behind it. -/
theorem takeRun_append_of_eq {s : Text} (h : takeRun s = (s, [])) (t : Text) :
    takeRun (s ++ t) = (s ++ (takeRun t).1, (takeRun t).2) := by
  refine run_induction rfl (fun c rest hc ih => ?_) (fun c rest hc ih => ?_) h
  · rw [List.cons_append, List.cons_append, takeRun_escaped hc, ih]
    rfl
  · rw [List.cons_append, takeRun_cons hc, ih]
    rfl

theorem takeRun_self (s : Text) : takeRun (takeRun s).1 = ((takeRun s).1, []) := by
  fun_induction takeRun s with
  | case1 => rfl
  | case2 => rfl
  | case3 c rest hc part after h ih =>
    rw [h] at ih
    rw [takeRun_escaped hc, ih]
  | case4 c rest _ hc part after h ih =>
    rw [h] at ih
    rw [takeRun_cons hc, ih]
  | case5 => rfl

/-- A quoted part ends where its quote closes, whatever follows. -/
theorem takeQuoted_append_of_eq {q : Char} (hq : isQuote q = true) {s part after : Text}
    (h : takeQuoted q s = some (part, after)) (t : Text) :
    takeQuoted q (part ++ t) = some (part, t) := by
  fun_induction takeQuoted q s generalizing part after with
  | case1 => cases h
  | case2 => cases h
  | case3 => cases h
  | case4 c rest hc part' after' hrest ih =>
    cases h
    rw [List.cons_append, List.cons_append, takeQuoted_escaped hc, ih hrest]
    rfl
  | case5 =>
    cases h
    exact takeQuoted_close hq t
  | case6 => cases h
  | case7 => cases h
  | case8 c rest _ hcq hbackslash part' after' hrest ih =>
    cases h
    rw [List.cons_append, takeQuoted_cons hcq hbackslash, ih hrest]
    rfl

theorem next?_quoted {s raw after : Text} : next? s = some (quoted raw, after) ↔
    ∃ q rest part, s = q :: rest ∧ isQuote q = true ∧ takeQuoted q rest = some (part, after) ∧
      raw = q :: part := by
  cases s with
  | nil => simp [next?]
  | cons c rest =>
    have hsign {q : Char} (hq : isQuote q = true) :
        Bracket.ofOpener? q = none ∧ Bracket.ofCloser? q = none := by
      rw [isQuote, Bool.or_eq_true, decide_eq_true_eq, decide_eq_true_eq] at hq
      rcases hq with rfl | rfl <;> exact ⟨rfl, rfl⟩
    rw [next?]
    grind

/-! ## Whole tokens -/

/-- A token is read from its own text. -/
def IsWhole (t : Token) : Prop :=
  next? t.raw = some (t, [])

/-- A token that is read is read from its own text, whatever follows it that does not go on with
    a run. -/
theorem next?_raw_append {s after u : Text} {t : Token} (h : next? s = some (t, after))
    (hu : t.isRun = true → takeRun u = ([], u)) : next? (t.raw ++ u) = some (t, u) := by
  cases t with
  | run raw =>
    obtain ⟨hrun, hne⟩ := next?_run.1 h
    have hself := takeRun_self s
    rw [hrun] at hself
    rw [next?_run, Token.raw, takeRun_append_of_eq hself, hu rfl]
    exact ⟨by rw [List.append_nil], hne⟩
  | quoted raw =>
    obtain ⟨q, rest, part, rfl, hq, hpart, rfl⟩ := next?_quoted.1 h
    exact next?_quoted.2 ⟨q, part ++ u, part, rfl, hq, takeQuoted_append_of_eq hq hpart u, rfl⟩
  | opener b => cases b <;> rfl
  | closer b => cases b <;> rfl

theorem isWhole_of_next? {s after : Text} {t : Token} (h : next? s = some (t, after)) :
    t.IsWhole := by
  have hwhole := next?_raw_append (u := []) h fun _ => rfl
  rwa [List.append_nil] at hwhole

/-! ## Rows -/

/-- Tokens that are whole, of which no run stands directly behind another. -/
inductive Row : List Token → Prop
  | nil : Row []
  | cons {t : Token} {ts : List Token} : t.IsWhole →
      (t.isRun = true → ts.head?.all (!·.isRun) = true) → Row ts → Row (t :: ts)

/-- Where a run cannot go on, no run begins. -/
theorem all_head?_tokenize {s : Text} (h : takeRun s = ([], s)) :
    (tokenize s).1.head?.all (!·.isRun) = true := by
  cases hnext : next? s with
  | none =>
    rw [tokenize_of_next?_eq_none hnext]
    rfl
  | some p =>
    obtain ⟨t, after⟩ := p
    rw [tokenize_of_next? hnext, List.head?_cons, Option.all_some]
    cases t with
    | run raw =>
      obtain ⟨hrun, hne⟩ := next?_run.1 hnext
      rw [h] at hrun
      exact absurd (Prod.mk.inj hrun).1.symm hne
    | _ => rfl

theorem takeRun_of_next? {s after : Text} {t : Token} (h : next? s = some (t, after))
    (ht : t.isRun = false) : takeRun s = ([], s) := by
  by_cases hnil : (takeRun s).1 = []
  · have happend := takeRun_append s
    rw [hnil, List.nil_append] at happend
    exact Prod.ext hnil happend
  · rw [next?_run.2 ⟨rfl, hnil⟩] at h
    cases h
    cases ht

/-- The tokens of a text are a row. -/
theorem row_tokenize (s : Text) : Row (tokenize s).1 := by
  fun_induction tokenize s with
  | case1 => exact .nil
  | case2 s t after h _ ts rest he ih =>
    rw [he] at ih
    refine .cons (isWhole_of_next? h) (fun hrun => ?_) ih
    cases t with
    | run raw =>
      have hstop := takeRun_after s
      rw [(next?_run.1 h).1] at hstop
      have hhead := all_head?_tokenize hstop
      rwa [he] at hhead
    | _ => cases hrun

/-- The text of a row has its tokens. -/
theorem tokenize_of_row {ts : List Token} (h : Row ts) :
    tokenize (ts.flatMap raw) = (ts, []) := by
  induction h with
  | nil =>
    rw [List.flatMap_nil, tokenize]
    rfl
  | @cons t ts hwhole hapart hrow ih =>
    -- A run stops at the next token, as that is no run.
    have hstop (hrun : t.isRun = true) : takeRun (ts.flatMap raw) = ([], ts.flatMap raw) := by
      cases hrow with
      | nil => rfl
      | @cons u us huwhole =>
        have hu : u.isRun = false := by simpa using hapart hrun
        refine takeRun_of_next? (next?_raw_append huwhole fun h => ?_) hu
        rw [hu] at h
        cases h
    rw [List.flatMap_cons, tokenize_of_next? (next?_raw_append hwhole hstop), ih]

end Token

end UtilityCss
