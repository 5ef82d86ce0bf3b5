import UtilityCss.Proofs.Bracket.Closed
import UtilityCss.Stylesheet.Printer

/-!
# The pieces of a block

A reader of CSS cuts a block at its semicolons, except for those in quotes, in brackets and after
a backslash. In a text that is *kept* there is none of the others, and the reader goes over from it
into what follows. A closed text is made of kept texts and semicolons (`Closed.items`), and so its
pieces do not depend on what follows it.

* `Text.pieces`: the pieces of a text;
* `Text.pieces_join`: closed texts with semicolons between have the pieces of each of them.
-/

namespace UtilityCss

namespace Nesting

/-- The state of a reader after one more character. Unlike in classes, quotes count outside
    groups, too. -/
def read (n : Nesting) (c : Char) : Nesting :=
  match n.quote with
  | some q => if c = q then { n with quote := none } else n
  | none =>
    if isQuote c then { n with quote := some c }
    else match Bracket.ofOpener? c with
      | some b => { n with stack := b :: n.stack }
      | none =>
        if n.stack.head?.map Bracket.closer = some c then { n with stack := n.stack.tail } else n

/-- The part of a text up to the first semicolon outside quotes, brackets and escapes, and the
    parts after it. -/
def cut : Nesting → Text → Text × List Text
  | _, [] => ([], [])
  | _, ['\\'] => (['\\'], [])
  | n, '\\' :: c :: rest =>
    let (part, parts) := cut n rest
    ('\\' :: c :: part, parts)
  | n, c :: rest =>
    if n = outside ∧ c = ';' then
      let (part, parts) := cut n rest
      ([], part :: parts)
    else
      let (part, parts) := cut (n.read c) rest
      (c :: part, parts)

/-- The reader goes over from a text into whatever follows it, in the state that it came in. -/
def Keeps (n : Nesting) (s : Text) : Prop :=
  ∀ t, n.cut (s ++ t) = (s ++ (n.cut t).1, (n.cut t).2)

end Nesting

/-- The parts of a text between the semicolons outside quotes, brackets and escapes. -/
def Text.pieces (s : Text) : List Text :=
  let (part, parts) := Nesting.outside.cut s
  part :: parts

namespace Nesting

variable {n : Nesting} {s t : Text}

theorem cut_cons {c : Char} (hc : c ≠ '\\') (n : Nesting) (rest : Text) :
    n.cut (c :: rest)
      = if n = outside ∧ c = ';' then ([], (n.cut rest).1 :: (n.cut rest).2)
        else (c :: ((n.read c).cut rest).1, ((n.read c).cut rest).2) := by
  rw [cut]
  · intro h
    exact absurd h hc
  · intro c' rest' h
    exact absurd h hc

namespace Keeps

theorem nil : n.Keeps [] := fun _ => rfl

theorem append (hs : n.Keeps s) (ht : n.Keeps t) : n.Keeps (s ++ t) := fun u => by
  rw [List.append_assoc, hs, ht, List.append_assoc]

theorem escaped (c : Char) : n.Keeps ['\\', c] := fun t => by
  rw [List.cons_append, List.singleton_append, cut]
  rfl

theorem plain {c : Char} (hc : Token.isPlain c = true) (hn : n.quote = none)
    (hcut : ¬ (n = outside ∧ c = ';')) : n.Keeps [c] := fun t => by
  have hread : n.read c = n := by
    simp only [Token.isPlain, Bool.and_eq_true, Option.isNone_iff_eq_none, Bool.not_eq_true'] at hc
    obtain ⟨⟨⟨ho, hcl⟩, hq⟩, _⟩ := hc
    have hcloser : ¬ n.stack.head?.map Bracket.closer = some c := fun h => by
      obtain ⟨b, hb, _⟩ := head?_closer_eq_some.1 h
      rw [hcl] at hb
      cases hb
    simp [read, hn, hq, ho, hcloser]
  rw [List.singleton_append, cut_cons (plain_ne_backslash hc), if_neg hcut, hread]
  rfl

theorem group {b : Bracket} (hn : n.quote = none)
    (h : Keeps { n with stack := b :: n.stack } s) : n.Keeps (b.enclose s) := fun t => by
  have hopen : n.read b.opener = { n with stack := b :: n.stack } := by
    cases b <;> simp [read, hn, isQuote, Bracket.ofOpener?, Bracket.opener]
  have hclose : read { n with stack := b :: n.stack } b.closer = n := by
    obtain ⟨stack, quote⟩ := n
    cases b <;> simp_all [read, isQuote, Bracket.ofOpener?, Bracket.closer]
  have hne : b.opener ≠ ';' := by
    cases b <;> decide
  have hdeep : ¬ ({ n with stack := b :: n.stack } = outside ∧ b.closer = ';') := by
    simp [outside]
  have hs : b.enclose s ++ t = b.opener :: (s ++ b.closer :: t) := by
    simp [Bracket.enclose]
  rw [hs, cut_cons (opener_ne_backslash b), if_neg fun hc => hne hc.2, hopen, h,
    cut_cons (closer_ne_backslash b), if_neg hdeep, hclose]
  simp [Bracket.enclose]

/-- Inside quotes the reader looks for the closing quote only. -/
theorem quotedRest {q : Char} (hq : isQuote q = true) (h : QuotedRest q s) (stack : List Bracket)
    (t : Text) : cut ⟨stack, some q⟩ (s ++ t)
      = (s ++ (cut ⟨stack, none⟩ t).1, (cut ⟨stack, none⟩ t).2) := by
  have hne {c : Char} : ¬ ((⟨stack, some q⟩ : Nesting) = outside ∧ c = ';') := by
    simp [outside]
  induction h with
  | close =>
    have hbackslash := quote_ne_backslash hq
    rw [List.singleton_append, cut_cons hbackslash, if_neg hne]
    simp [read]
  | @char c rest hcq hbackslash _ ih =>
    rw [List.cons_append, cut_cons hbackslash, if_neg hne]
    simp [read, hcq, ih]
  | escaped _ _ ih =>
    rw [List.cons_append, List.cons_append, cut, ih]
    rfl

theorem quoted {q : Char} (hn : n.quote = none) (hq : isQuote q = true) (h : QuotedRest q s) :
    n.Keeps (q :: s) := fun t => by
  have hne : q ≠ '\\' ∧ q ≠ ';' := by
    constructor <;> rintro rfl <;> cases hq
  have hread : n.read q = ⟨n.stack, some q⟩ := by
    simp [read, hn, hq]
  obtain ⟨stack, quote⟩ := n
  cases hn
  rw [List.cons_append, cut_cons hne.1, if_neg fun hc => hne.2 hc.2, hread, quotedRest hq h]
  rfl

/-- Inside a group, or without a semicolon, a closed text is kept. -/
theorem of_closed (h : Closed s) (hn : n.quote = none) (hcut : n ≠ outside ∨ ';' ∉ s) :
    n.Keeps s := by
  -- The state is not fixed: inside a group the reader is never at the outside.
  induction h generalizing n with
  | nil => exact nil
  | @plain c rest hc _ ih =>
    refine append (plain hc hn ?_) (ih hn (hcut.imp_right fun hs hmem => hs (.tail c hmem)))
    rintro ⟨hout, rfl⟩
    exact hcut.elim (fun h => h hout) fun hs => hs List.mem_cons_self
  | @escaped c rest _ _ ih =>
    exact append (escaped c) (ih hn (hcut.imp_right fun hs hmem => hs (.tail _ (.tail c hmem))))
  | quoted hq hinside _ ih =>
    exact append (quoted hn hq hinside)
      (ih hn (hcut.imp_right fun hs hmem => hs (List.mem_append_right _ hmem)))
  | @group b inside rest _ _ ihinside ih =>
    refine append (group hn (ihinside hn (.inl ?_)))
      (ih hn (hcut.imp_right fun hs hmem => hs (List.mem_append_right _ hmem)))
    simp [outside]

theorem enclose (b : Bracket) (h : Closed s) (hn : n.quote = none) : n.Keeps (b.enclose s) :=
  group hn (of_closed h hn (.inl (by simp [outside])))

end Keeps

end Nesting

/-! ## Closed texts -/

/-- A closed text is made of kept texts and semicolons. -/
theorem Closed.items {P : Text → Prop} {s : Text} (h : Closed s) (nil : P [])
    (kept : ∀ {s t}, Nesting.outside.Keeps s → P t → P (s ++ t))
    (semicolon : ∀ {t}, P t → P (';' :: t)) : P s := by
  induction h with
  | nil => exact nil
  | @plain c rest hc _ ih =>
    by_cases hcut : c = ';'
    · rw [hcut]
      exact semicolon ih
    · exact kept (.plain hc rfl fun h => hcut h.2) ih
  | @escaped c rest _ _ ih => exact kept (.escaped c) ih
  | quoted hq hinside _ ih => exact kept (.quoted rfl hq hinside) ih
  | @group b _ _ hinside _ _ ih => exact kept (.enclose b hinside rfl) ih

namespace Text

variable {s t : Text}

theorem pieces_semicolon (s : Text) : pieces (';' :: s) = [] :: s.pieces := by
  rw [pieces, Nesting.cut_cons (by decide), if_pos ⟨rfl, rfl⟩]
  rfl

theorem pieces_append_of_keeps (hs : Nesting.outside.Keeps s) (t : Text) :
    ∃ part parts, t.pieces = part :: parts ∧ (s ++ t).pieces = (s ++ part) :: parts :=
  ⟨_, _, rfl, by rw [pieces, hs]⟩

theorem pieces_of_keeps (hs : Nesting.outside.Keeps s) : s.pieces = [s] := by
  have := hs []
  rw [List.append_nil] at this
  rw [pieces, this]
  simp [Nesting.cut]

/-- A closed text that is one piece is kept. -/
theorem keeps_of_pieces (h : Closed s) (hs : s.pieces = [s]) : Nesting.outside.Keeps s := by
  revert hs
  refine h.items (P := fun s => s.pieces = [s] → Nesting.outside.Keeps s) (fun _ => .nil) ?_ ?_
  · intro s t hkeeps ih hs
    obtain ⟨part, parts, ht, hst⟩ := pieces_append_of_keeps hkeeps t
    rw [hs] at hst
    obtain ⟨hpart, rfl⟩ := List.cons.inj hst
    rw [← List.append_cancel_left hpart] at ht
    exact hkeeps.append (ih ht)
  · intro t _ hs
    rw [pieces_semicolon] at hs
    cases hs

/-- A semicolon after a closed text ends its last piece. -/
theorem pieces_append (h : Closed s) (t : Text) :
    (s ++ ';' :: t).pieces = s.pieces ++ t.pieces := by
  refine h.items (P := fun s => (s ++ ';' :: t).pieces = s.pieces ++ t.pieces)
    (pieces_semicolon t) ?_ ?_
  · intro s u hkeeps ih
    obtain ⟨part, parts, hu, hsu⟩ := pieces_append_of_keeps hkeeps u
    obtain ⟨part', parts', hut, hsut⟩ := pieces_append_of_keeps hkeeps (u ++ ';' :: t)
    rw [ih, hu] at hut
    obtain ⟨rfl, rfl⟩ := List.cons.inj hut
    rw [List.append_assoc, hsut, hsu]
    rfl
  · intro u ih
    rw [List.cons_append, pieces_semicolon, pieces_semicolon, ih]
    rfl

/-- Closed texts with semicolons between have the pieces of each of them. -/
theorem pieces_join {parts : List Text} (h : ∀ s ∈ parts, Closed s) (hne : parts ≠ []) :
    (join [';'] parts).pieces = parts.flatMap pieces := by
  induction parts with
  | nil => exact absurd rfl hne
  | cons s parts ih =>
    obtain ⟨hs, h⟩ := List.forall_mem_cons.1 h
    cases parts with
    | nil => simp
    | cons t parts =>
      rw [join_cons_cons, List.append_assoc, List.singleton_append, pieces_append hs,
        ih h (List.cons_ne_nil t parts), List.flatMap_cons (x := s)]

end Text

end UtilityCss
