import Mathlib.Data.List.TakeWhile
import UtilityCss.Proofs.Variant.Regular
import UtilityCss.Proofs.Variant.Soundness
import UtilityCss.Proofs.Variant.Stock

/-!
# Negating a condition twice

The negation takes a leading `not ` off a condition, and otherwise puts one in: in front, or behind
the text before the first round bracket, which is taken for the name of a container. What was put
in behind a name is not found again, and another one is added. So only conditions without a name
are negated back.

The reason is in the number of characters that are not blank: taking `not` off makes it less by
three, and every other negation makes it greater (`weight_negateCondition`). A condition is negated
back exactly if one of the two negations takes off just what the other puts in front
(`negateCondition_eq_iff`), and negated twice it is never the same in any other way.

* `negateCondition_negateCondition_iff`: the conditions that are negated back;
* `Leaf.isReversible`: the leaves that give such conditions, among the stock variants;
* `Variant.compound?_not_twice_iff`: what `not` does to the at-rule of a stock variant.
-/

namespace UtilityCss

/-! ## Conditions -/

namespace Text

/-- Whether something stands before the first round bracket that is taken for a name. -/
def isNamed (s : Text) : Bool :=
  s.contains '(' && !(s.takeWhile (· ≠ '(')).all isBlank

/-- Whether a condition is negated by a `not` in front. -/
def takesNot (s : Text) : Bool :=
  !s.startsWith "not " && !s.isNamed

/-- Whether a condition is the same again when it is negated twice. -/
def isReversible (s : Text) : Bool :=
  if s.startsWith "not " then takesNot (s.drop 4) else takesNot s

/-- The number of characters that are not blank. -/
def weight (s : Text) : Nat :=
  s.countP (!isBlank ·)

variable {s head condition : Text}

theorem weight_append (s t : Text) : (s ++ t).weight = s.weight + t.weight :=
  List.countP_append

theorem weight_eq_zero_iff : s.weight = 0 ↔ ∀ c ∈ s, isBlank c = true := by
  simp [weight, List.countP_eq_zero]

theorem weight_strip (s : Text) : s.strip.weight = s.weight := by
  obtain ⟨left, right, hs, hleft, hright⟩ := exists_eq_strip s
  have hweight := congrArg weight hs
  rw [weight_append, weight_append, weight_eq_zero_iff.2 hleft,
    weight_eq_zero_iff.2 hright] at hweight
  omega

theorem strip_eq_nil_iff : s.strip = [] ↔ ∀ c ∈ s, isBlank c = true := by
  constructor
  · intro h
    rw [← weight_eq_zero_iff, ← weight_strip, h]
    rfl
  · intro h
    rw [strip, List.dropWhile_eq_nil_iff.2 h]
    rfl

/-- The last character of a stripped text is not blank. -/
theorem isBlank_of_getLast?_strip {c : Char} (h : s.strip.getLast? = some c) :
    isBlank c = false := by
  rw [strip, dropEndWhile, List.getLast?_reverse] at h
  have hhead := List.head?_dropWhile_not isBlank (s.dropWhile isBlank).reverse
  rw [h] at hhead
  exact hhead

theorem exists_of_startsWith {start : Text} (h : s.startsWith start = true) :
    ∃ rest, s = start ++ rest := by
  obtain ⟨rest, hrest⟩ := List.isPrefixOf_iff_prefix.1 h
  exact ⟨rest, hrest.symm⟩

theorem startsWith_append (start rest : Text) : (start ++ rest).startsWith start = true :=
  List.isPrefixOf_iff_prefix.2 (List.prefix_append start rest)

theorem ne_of_not_mem {x : Char} (h : x ∉ s) : ∀ c ∈ s, decide (c ≠ x) = true :=
  fun _ hc => decide_eq_true (ne_of_mem_of_not_mem hc h)

theorem takeWhile_append_cons {x : Char} (hhead : x ∉ head) (rest : Text) :
    (head ++ x :: rest).takeWhile (fun c => decide (c ≠ x)) = head := by
  rw [List.takeWhile_append_of_pos (ne_of_not_mem hhead),
    List.takeWhile_cons_of_neg (by simp), List.append_nil]

theorem dropWhile_append_cons {x : Char} (hhead : x ∉ head) (rest : Text) :
    (head ++ x :: rest).dropWhile (fun c => decide (c ≠ x)) = x :: rest := by
  rw [List.dropWhile_append_of_pos (ne_of_not_mem hhead), List.dropWhile_cons_of_neg (by simp)]

theorem isNamed_append (hhead : '(' ∉ head) :
    (head ++ '(' :: condition).isNamed = !head.all isBlank := by
  rw [isNamed, takeWhile_append_cons hhead]
  simp

theorem takesNot_iff : s.takesNot = true ↔ s.startsWith "not " = false ∧ s.isNamed = false := by
  rw [takesNot, Bool.and_eq_true, Bool.not_eq_true', Bool.not_eq_true']

theorem isReversible_not_append (s : Text) : isReversible ("not ".toList ++ s) = s.takesNot := by
  rw [isReversible, if_pos (startsWith_append _ s)]
  rfl

end Text

section Negation

open Text

variable {s head condition : Text}

theorem negateCondition_not_append (s : Text) : negateCondition ("not ".toList ++ s) = s := by
  rw [negateCondition, if_pos (startsWith_append _ s)]
  rfl

/-- A `not` comes behind the text before the first round bracket. -/
theorem negateCondition_of_isNamed (hnot : s.startsWith "not " = false) (h : s.isNamed = true) :
    ∃ head condition, s = head ++ '(' :: condition ∧ head.strip ≠ [] ∧
      negateCondition s = head.strip ++ " not ".toList ++ '(' :: condition := by
  obtain ⟨head, condition, rfl, hhead⟩ :=
    List.eq_append_cons_of_mem (List.contains_iff_mem.1 (Bool.and_eq_true_iff.1 h).1)
  rw [isNamed_append hhead, Bool.not_eq_true', ← Bool.not_eq_true, List.all_eq_true,
    ← strip_eq_nil_iff] at h
  refine ⟨head, condition, rfl, h, ?_⟩
  rw [negateCondition, hnot, if_neg Bool.false_ne_true, takeWhile_append_cons hhead,
    dropWhile_append_cons hhead]
  simp [h, join_eq_flatten]

/-- Without such a text, a `not` comes in front. -/
theorem negateCondition_of_takesNot (h : s.takesNot = true) :
    negateCondition s = "not ".toList ++ s := by
  rw [takesNot_iff] at h
  rw [negateCondition, h.1, if_neg Bool.false_ne_true]
  by_cases hround : '(' ∈ s
  · obtain ⟨head, condition, rfl, hhead⟩ := List.eq_append_cons_of_mem hround
    rw [isNamed_append hhead, Bool.not_eq_false', List.all_eq_true, ← strip_eq_nil_iff] at h
    rw [takeWhile_append_cons hhead, dropWhile_append_cons hhead, h.2]
    rfl
  · rw [List.dropWhile_eq_nil_iff.2 (ne_of_not_mem hround)]

/-- A negation that takes nothing off adds three characters that are not blank. -/
theorem weight_negateCondition (hnot : s.startsWith "not " = false) :
    (negateCondition s).weight = s.weight + 3 := by
  have hweight : weight "not " = 3 ∧ weight " not " = 3 := by decide
  cases hnamed : s.isNamed with
  | true =>
    obtain ⟨head, condition, rfl, _, h⟩ := negateCondition_of_isNamed hnot hnamed
    rw [h, weight_append, weight_append, weight_append, weight_strip, hweight.2]
    omega
  | false =>
    rw [negateCondition_of_takesNot (takesNot_iff.2 ⟨hnot, hnamed⟩), weight_append, hweight.1,
      Nat.add_comm]

theorem negateCondition_ne (s : Text) : negateCondition s ≠ s := by
  intro h
  cases hnot : s.startsWith "not " with
  | true =>
    obtain ⟨rest, rfl⟩ := exists_of_startsWith hnot
    rw [negateCondition_not_append] at h
    exact absurd (List.self_eq_append_left.1 h) (by decide)
  | false =>
    have hweight := weight_negateCondition hnot
    rw [h] at hweight
    omega

/-- If a `not` behind the name were one in front, only a space could stand around the name. -/
theorem eq_strip_append_space (hhead : head.strip ≠ [])
    (h : head.strip ++ " not ".toList = "not ".toList ++ head) : head = head.strip ++ [' '] := by
  obtain ⟨left, right, heq, -, -⟩ := exists_eq_strip head
  have hsides : left.length + right.length = 1 := by
    have hnots : " not ".toList.length = 5 ∧ "not ".toList.length = 4 := by decide
    have hlengths := congrArg List.length heq
    have hlengths' := congrArg List.length h
    simp only [List.length_append] at hlengths hlengths'
    omega
  have hlast : head.getLast? = some ' ' := by
    have hne : head ≠ [] := by
      rintro rfl
      exact hhead rfl
    have hlasts := congrArg List.getLast? h
    rw [List.getLast?_append_of_ne_nil _ hne,
      List.getLast?_append_of_ne_nil _ (by decide)] at hlasts
    exact hlasts.symm
  cases right with
  | nil =>
    -- The name itself would end in a blank.
    rw [List.append_nil] at heq
    rw [heq, List.getLast?_append_of_ne_nil _ hhead] at hlast
    cases isBlank_of_getLast?_strip hlast
  | cons b right =>
    rw [List.length_cons] at hsides
    have hleft : left = [] := List.length_eq_zero_iff.1 (by omega)
    have hright : right = [] := List.length_eq_zero_iff.1 (by omega)
    rw [hleft, hright, List.nil_append] at heq
    rw [heq, List.getLast?_concat] at hlast
    rw [← Option.some.inj hlast]
    exact heq

/-- A name that a `not` may stand on either side of begins with `not` itself. -/
theorem startsWith_not_of_sides {name rest : Text} (hname : name ≠ [])
    (h : name ++ " not ".toList = "not ".toList ++ (name ++ [' '])) :
    (name ++ ' ' :: rest).startsWith "not " = true := by
  rcases name with _ | ⟨c₁, _ | ⟨c₂, _ | ⟨c₃, name⟩⟩⟩
  · exact absurd rfl hname
  · simp at h
  · simp at h
  · -- Whatever stands behind the `not`, it begins with a space.
    obtain ⟨rfl, rfl, rfl, h⟩ : c₁ = 'n' ∧ c₂ = 'o' ∧ c₃ = 't' ∧
        name ++ " not ".toList = ' ' :: c₁ :: c₂ :: c₃ :: (name ++ [' ']) := by
      simpa using h
    cases name with
    | nil => rfl
    | cons c name =>
      obtain ⟨rfl, -⟩ := List.cons.inj h
      rfl

/-- A `not` behind a name is never one in front. -/
theorem strip_append_not_ne (hhead : head.strip ≠ [])
    (hnot : (head ++ '(' :: condition).startsWith "not " = false) :
    head.strip ++ " not ".toList ≠ "not ".toList ++ head := by
  intro h
  have hspace := eq_strip_append_space hhead h
  rw [hspace, List.append_assoc, List.singleton_append,
    startsWith_not_of_sides hhead (h.trans (congrArg _ hspace))] at hnot
  cases hnot

/-- A `not` is put in front exactly if there is no other one and no name. -/
theorem negateCondition_eq_iff : negateCondition s = "not ".toList ++ s ↔ s.takesNot = true := by
  refine ⟨fun h => ?_, negateCondition_of_takesNot⟩
  cases hnot : s.startsWith "not " with
  | true =>
    obtain ⟨rest, rfl⟩ := exists_of_startsWith hnot
    rw [negateCondition_not_append, ← List.append_assoc] at h
    exact absurd (List.self_eq_append_left.1 h) (by decide)
  | false =>
    cases hnamed : s.isNamed with
    | true =>
      obtain ⟨head, condition, rfl, hhead, hnegate⟩ := negateCondition_of_isNamed hnot hnamed
      rw [hnegate, ← List.append_assoc] at h
      exact absurd (List.append_cancel_right h) (strip_append_not_ne hhead hnot)
    | false => exact takesNot_iff.2 ⟨hnot, hnamed⟩

/-- A condition is the same again when it is negated twice exactly if no name stands in it, apart
    from a `not` in front. -/
theorem negateCondition_negateCondition_iff :
    negateCondition (negateCondition s) = s ↔ s.isReversible = true := by
  cases hnot : s.startsWith "not " with
  | true =>
    obtain ⟨rest, rfl⟩ := exists_of_startsWith hnot
    rw [negateCondition_not_append, negateCondition_eq_iff, isReversible_not_append]
  | false =>
    rw [isReversible, hnot, if_neg Bool.false_ne_true, ← negateCondition_eq_iff]
    constructor
    · -- The second negation must take off what the first has added, so it finds it in front.
      intro h
      cases hnot' : (negateCondition s).startsWith "not " with
      | true =>
        obtain ⟨rest, hrest⟩ := exists_of_startsWith hnot'
        rw [hrest, negateCondition_not_append] at h
        rw [hrest, h]
      | false =>
        have hweight := weight_negateCondition hnot'
        rw [h, weight_negateCondition hnot] at hweight
        omega
    · intro h
      rw [h, negateCondition_not_append]

theorem isReversible_negateCondition (h : s.isReversible = true) :
    (negateCondition s).isReversible = true :=
  negateCondition_negateCondition_iff.1
    (congrArg negateCondition (negateCondition_negateCondition_iff.2 h))

end Negation

/-! ## The conditions of queries -/

/-- Whether a condition of `@supports` begins with a function. -/
def callsFunction (value : Text) : Bool :=
  supportsFunctions.tail.any value.startsWith

theorem takesNot_round (s : Text) : Text.takesNot ('(' :: s) = true := by
  have hnamed : Text.isNamed ([] ++ '(' :: s) = false := Text.isNamed_append List.not_mem_nil
  exact Text.takesNot_iff.2 ⟨rfl, hnamed⟩

theorem isReversible_round (s : Text) : Text.isReversible ('(' :: s) = true := by
  have hnot : Text.startsWith ('(' :: s) "not " = false := rfl
  rw [Text.isReversible, hnot, if_neg Bool.false_ne_true]
  exact takesNot_round s

/-- A name in front of the first round bracket is not found again. -/
theorem isReversible_of_name (name condition : Text) (hround : '(' ∉ name)
    (hblank : name.all isBlank = false)
    (hnot : (name ++ '(' :: condition).startsWith "not " = false) :
    Text.isReversible (name ++ '(' :: condition) = false := by
  rw [Text.isReversible, hnot, if_neg Bool.false_ne_true, ← Bool.not_eq_true, Text.takesNot_iff,
    Text.isNamed_append hround, hblank]
  exact fun h => Bool.noConfusion h.2

theorem isReversible_supportsCondition (value : Text) :
    (supportsCondition value).isReversible = !callsFunction value := by
  have hround : supportsFunctions = ['('] :: supportsFunctions.tail := rfl
  rw [supportsCondition, hround, List.any_cons]
  cases hcalls : callsFunction value with
  | true =>
    obtain ⟨start, hstart, hvalue⟩ := List.any_eq_true.1 hcalls
    rw [callsFunction] at hcalls
    rw [hcalls, Bool.or_true, if_pos rfl, Bool.not_true]
    obtain ⟨rest, rfl⟩ := Text.exists_of_startsWith hvalue
    simp only [supportsFunctions, List.tail_cons, List.mem_cons, List.not_mem_nil,
      or_false] at hstart
    rcases hstart with rfl | rfl | rfl
    · exact isReversible_of_name "selector" rest (by decide) (by decide) rfl
    · exact isReversible_of_name "font-tech" rest (by decide) (by decide) rfl
    · exact isReversible_of_name "font-format" rest (by decide) (by decide) rfl
  | false =>
    rw [callsFunction] at hcalls
    rw [hcalls, Bool.or_false]
    split
    · next hvalue =>
      obtain ⟨rest, rfl⟩ := Text.exists_of_startsWith hvalue
      exact isReversible_round rest
    · split
      · exact isReversible_round _
      · exact isReversible_round _

theorem all_isBlank_of_isIdentifier {s : Text} (h : s.isIdentifier = true) :
    s.all isBlank = false := by
  have hnames := isNameChar_of_isIdentifier h
  rw [Text.isIdentifier, Bool.and_eq_true, Bool.not_eq_true', List.isEmpty_eq_false_iff] at h
  obtain ⟨c, hc⟩ := List.exists_mem_of_ne_nil _ h.1
  have hmem : c ∈ s := by
    rcases eq_dropFinalNewline_or s with hs | hs
    · rwa [hs]
    · rw [hs]
      exact List.mem_append_left _ hc
  have hblank : isBlank c = false :=
    of_isNameChar (P := fun c => isBlank c = false) (by decide) (hnames c hc)
  exact List.all_eq_false.2 ⟨c, hmem, by simp [hblank]⟩

/-- A named container is negated back only if its name is `not`, which is not taken for one. -/
theorem isReversible_container {name condition : Text} (hname : name.isIdentifier = true) :
    Text.isReversible (name ++ ' ' :: '(' :: condition) = decide (name = "not".toList) := by
  by_cases hnot : name = "not".toList
  · rw [hnot, decide_eq_true rfl]
    exact (Text.isReversible_not_append _).trans (takesNot_round condition)
  · have hword := isWord_of_isIdentifier hname
    have hround : '(' ∉ name ++ [' '] := by
      simp only [List.mem_append, List.mem_singleton, not_or]
      exact ⟨fun hmem => absurd (hword _ hmem).1 (by decide), by decide⟩
    have hblank : (name ++ [' ']).all isBlank = false := by
      rw [List.all_append, all_isBlank_of_isIdentifier hname, Bool.false_and]
    rw [decide_eq_false hnot, List.append_cons]
    refine isReversible_of_name _ condition hround hblank
      (eq_false_of_ne_true fun hstart => hnot ?_)
    obtain ⟨rest, hrest⟩ := Text.exists_of_startsWith hstart
    rw [← List.append_cons] at hrest
    have hspace : ' ' ∉ name := fun hmem => (hword _ hmem).2.2 rfl
    calc name = (name ++ ' ' :: '(' :: condition).takeWhile (fun c => decide (c ≠ ' ')) :=
        (Text.takeWhile_append_cons hspace _).symm
      _ = ("not".toList ++ ' ' :: rest).takeWhile (fun c => decide (c ≠ ' ')) := by
        rw [hrest]
        rfl
      _ = "not" := Text.takeWhile_append_cons (by decide) rest

section Query

variable {argument : Argument} {modifier : Option Text} {rule params : Text}

theorem SizeQuery.isReversible_of_wrap? {q : SizeQuery}
    (hmodifier : modifier.all Text.isIdentifier = true)
    (h : q.wrap? argument modifier = some (.atRule rule params)) :
    rule = q.atRule ∧ params.isReversible = modifier.all fun m => decide (m = "not".toList) := by
  obtain ⟨_, h⟩ := Option.ite_none_left_eq_some.1 h
  obtain ⟨size, _, h⟩ := Option.map_eq_some_iff.1 h
  obtain ⟨rfl, rfl⟩ := Wrap.atRule.inj h
  refine ⟨rfl, ?_⟩
  cases modifier with
  | none => exact isReversible_round _
  | some name => exact isReversible_container hmodifier

/-- Only features and sizes are asked for by an at-rule. -/
theorem Query.of_wrap?_eq_atRule {query : Query}
    (h : query.wrap? argument modifier = some (.atRule rule params)) :
    (query = .supports ∧ modifier = none ∧ rule = "@supports".toList ∧
      ∃ value, (argument = .key value ∨ argument = .arbitrary value) ∧
        params = supportsCondition value) ∨
      ∃ q, query = .size q ∧ q.wrap? argument modifier = some (.atRule rule params) := by
  unfold wrap? at h
  split at h
  case h_7 value =>
    cases h
    exact .inl ⟨rfl, rfl, rfl, value, .inl rfl, rfl⟩
  case h_8 value =>
    cases h
    exact .inl ⟨rfl, rfl, rfl, value, .inr rfl, rfl⟩
  case h_9 q => exact .inr ⟨q, rfl, h⟩
  -- All other queries make selectors.
  case h_1 | h_5 =>
    obtain ⟨_, h⟩ := Option.ite_none_right_eq_some.1 h
    cases h
  all_goals cases h

end Query

/-! ## Stock variants -/

/-- Whether the at-rule of a leaf is the same again when it is negated twice. It is not if it begins
    with the name of a container, unless the name is `not`, with a function, or in brackets with
    other text before the first round bracket. -/
def Leaf.isReversible : Leaf → Bool
  | named (.functional _ _ (some modifier)) => modifier = "not".toList
  | named (.functional name (.arbitrary value) none) =>
    name ≠ "supports".toList || !callsFunction value
  | named _ => true
  | arbitrary selector => (splitAtRule selector).2.isReversible

theorem Leaf.isReversible_of_ne {name : Text} (hname : name ≠ "supports".toList)
    {argument : Argument} {modifier : Option Text} :
    (named (.functional name argument modifier)).isReversible
      = modifier.all fun m => decide (m = "not".toList) := by
  cases modifier with
  | none =>
    cases argument with
    | arbitrary value =>
      rw [isReversible, decide_eq_true hname]
      rfl
    | key | identifier => rfl
  | some m => rfl

namespace VariantDefinition.IsStock

variable {theme : Theme} {name : Text}

/-- The at-rules of the stock variants are conditional, and none of them has a name. -/
theorem isReversible {rule params : Text} {compounds : Bool}
    (h : IsStock theme ⟨name, .fixed (.atRule rule params) compounds⟩) :
    conditionalAtRules.contains rule = true ∧ params.isReversible = true := by
  have hconditions : ∀ condition ∈ VariantTable.stockConditions, condition.isReversible = true := by
    decide +kernel
  cases h with
  | atRule hcondition => exact ⟨rfl, hconditions _ hcondition⟩
  | breakpoint => exact ⟨rfl, isReversible_round _⟩

/-- Only the stock variant `supports` asks for features, and the sizes are asked for by at-rules
    with a condition. -/
theorem exists_query {resolve : Argument → Option Text → Option Wrap} {values : List Text}
    (h : IsStock theme ⟨name, .functional resolve values⟩) : ∃ query : Query,
      resolve = query.wrap? ∧ (query = .supports → name = "supports".toList) ∧
      ∀ q, query = .size q →
        name ≠ "supports".toList ∧ conditionalAtRules.contains q.atRule = true := by
  cases h with
  | states => exact ⟨.aria, rfl, nofun, nofun⟩
  | @unlisted _ query hunlisted =>
    simp only [VariantTable.unlistedQueries, List.mem_cons, Prod.mk.injEq, List.not_mem_nil,
      or_false] at hunlisted
    obtain ⟨_, rfl⟩ | ⟨_, rfl⟩ | ⟨_, rfl⟩ | ⟨hname, rfl⟩ := hunlisted
    · exact ⟨.data, rfl, nofun, nofun⟩
    · exact ⟨.position "nth-child", rfl, nofun, nofun⟩
    · exact ⟨.position "nth-last-child", rfl, nofun, nofun⟩
    · exact ⟨.supports, rfl, fun _ => hname, nofun⟩
  | viewport hname =>
    have hne : ∀ name ∈ VariantTable.viewportNames, name ≠ "supports".toList := by decide
    exact ⟨_, rfl, nofun, by rintro _ ⟨⟩; exact ⟨hne _ hname, rfl⟩⟩
  | container hname =>
    have hne : ∀ name ∈ VariantTable.atNames, name ≠ "supports".toList := by decide
    exact ⟨_, rfl, nofun, by rintro _ ⟨⟩; exact ⟨hne _ hname, rfl⟩⟩

end VariantDefinition.IsStock

/-- A key calls no function. -/
theorem callsFunction_of_isKey {value : Text} (h : value.isKey = true) :
    callsFunction value = false := by
  have hround : ∀ start ∈ supportsFunctions, '(' ∈ start := by decide
  have hword := isWord_of_dropFinalNewline (isNameChar_of_isKey h)
  refine eq_false_of_ne_true fun hcalls => ?_
  obtain ⟨start, hstart, hvalue⟩ := List.any_eq_true.1 hcalls
  obtain ⟨rest, rfl⟩ := Text.exists_of_startsWith hvalue
  have hmem := List.mem_append_left rest (hround start (List.mem_of_mem_tail hstart))
  exact absurd (hword _ hmem).1 (by decide)

theorem Relation.arbitrary?_ne_atRule {relation : Relation} {selector : Text}
    {group : Option Text} {rule params : Text} :
    relation.arbitrary? selector group ≠ some (.atRule rule params) := by
  intro h
  unfold arbitrary? at h
  split at h <;> cases h

section Stock

variable {theme : Theme} {table : VariantTable} (htable : VariantTable.stock theme = .ok table)
  {name rule params : Text}

include htable

namespace Leaf

theorem isReversible_of_wrapOfArgument? {argument : Argument} {text : Text}
    {modifier : Option Text} (hargument : ArgumentSpelling argument text)
    (hmodifier : modifier.all Text.isIdentifier = true)
    (h : wrapOfArgument? table name argument modifier = some (.atRule rule params)) :
    conditionalAtRules.contains rule = true ∧
      params.isReversible = (named (.functional name argument modifier)).isReversible := by
  unfold wrapOfArgument? at h
  split at h
  · next resolve values hb =>
    obtain ⟨query, rfl, hsupports, hsizes⟩ :=
      (VariantTable.isStock_of_behavior? htable hb).exists_query
    rcases Query.of_wrap?_eq_atRule h with
      ⟨rfl, rfl, rfl, value, hvalue, rfl⟩ | ⟨q, rfl, hsize⟩
    · refine ⟨rfl, ?_⟩
      rw [isReversible_supportsCondition]
      rcases hvalue with rfl | rfl
      · cases hargument with
        | key hkey =>
          rw [callsFunction_of_isKey hkey]
          rfl
      · rw [isReversible, hsupports rfl]
        rfl
    · obtain ⟨hname, hrule⟩ := hsizes q rfl
      obtain ⟨rfl, hparams⟩ := SizeQuery.isReversible_of_wrap? hmodifier hsize
      rw [isReversible_of_ne hname]
      exact ⟨hrule, hparams⟩
  · next root selector hb =>
    obtain ⟨relation, _, rfl⟩ := (VariantTable.isStock_of_behavior? htable hb).exists_relation
    exact absurd h Relation.arbitrary?_ne_atRule
  · cases h

/-- The at-rule of a leaf is conditional, and its condition is negated back if the leaf says so. -/
theorem isReversible_of_wrap? {l : Leaf} {s : Text} (hl : LeafSpelling table l s)
    {compounds : Bool} (h : l.wrap? table = some (.atRule rule params, compounds)) :
    conditionalAtRules.contains rule = true ∧ params.isReversible = l.isReversible := by
  cases hl with
  | static =>
    unfold wrap? at h
    dsimp only at h
    split at h
    · next hb =>
      cases h
      exact (VariantTable.isStock_of_behavior? htable hb).isReversible
    · cases h
  | functional _ _ _ _ _ hargument hmodifier =>
    obtain ⟨w, hw, h⟩ := Option.map_eq_some_iff.1 h
    cases h
    exact isReversible_of_wrapOfArgument? htable hargument hmodifier hw
  | selector hselector =>
    have h := Option.some.inj h
    rw [wrapOfSelector] at h
    split at h
    · next hat =>
      cases h
      exact ⟨conditional_of_ofSelector? hselector hat, rfl⟩
    · split at h <;> cases h

omit htable in
/-- Only fixed at-rules may be negated, and these are negated back. -/
theorem isReversible_of_compounds {l : Leaf}
    (h : l.wrap? table = some (.atRule rule params, true)) : l.isReversible = true := by
  unfold wrap? at h
  split at h
  · next selector =>
    have h := Option.some.inj h
    rw [wrapOfSelector] at h
    split at h
    · cases h
    · split at h <;> cases h
  · rfl
  · obtain ⟨w, _, h⟩ := Option.map_eq_some_iff.1 h
    cases h

end Leaf

namespace Variant

/-- A compound root that makes an at-rule negates one. -/
theorem of_compound?_eq_atRule {outer : Atom} {w : Wrap}
    (h : compound? table outer w = some (.atRule rule params)) :
    ∃ params', w = .atRule rule params' ∧ params = negateCondition params' := by
  unfold compound? at h
  split at h
  · next root hb =>
    obtain ⟨relation, _, rfl⟩ := (VariantTable.isStock_of_behavior? htable hb).exists_relation
    replace h : relation.compound? w outer.groupName? = some (.atRule rule params) := h
    unfold Relation.compound? at h
    split at h
    case h_2 =>
      obtain ⟨_, h⟩ := Option.ite_none_right_eq_some.1 h
      cases h
      exact ⟨_, rfl, rfl⟩
    all_goals cases h
  · cases h

/-- The compound roots around an at-rule only negate it, so it goes on to be negated back. -/
theorem isReversible_of_foldr {outers : List Atom} {w : Wrap}
    (h : outers.foldr (fun outer inner => inner.bind (compound? table outer)) (some w)
      = some (.atRule rule params)) :
    ∃ params', w = .atRule rule params' ∧
      (params'.isReversible = true → params.isReversible = true) := by
  induction outers generalizing params with
  | nil =>
    cases h
    exact ⟨_, rfl, id⟩
  | cons outer outers ih =>
    obtain ⟨inner, hinner, h⟩ := Option.bind_eq_some_iff.1 h
    obtain ⟨params', rfl, rfl⟩ := of_compound?_eq_atRule htable h
    obtain ⟨params₀, hw, hrev⟩ := ih hinner
    exact ⟨params₀, hw, fun h => isReversible_negateCondition (hrev h)⟩

omit htable in
theorem exists_leafSpelling {v : Variant} {s : Text} (h : ChainSpelling table v s) :
    ∃ text, LeafSpelling table v.leaf text := by
  induction h with
  | leaf hleaf => exact ⟨_, hleaf⟩
  | root _ _ _ _ _ _ ih => exact ih

/-- The at-rule of a variant is conditional, and its condition is negated back if the leaf says
    so. -/
theorem isReversible_of_wrap? {v : Variant} {s : Text} (hv : ChainSpelling table v s)
    (h : v.wrap? table = some (.atRule rule params)) :
    conditionalAtRules.contains rule = true ∧ params.isReversible = v.leaf.isReversible := by
  obtain ⟨text, hleaf⟩ := exists_leafSpelling hv
  rw [wrap?] at h
  split at h
  · cases h
  · next w compounds hw =>
    obtain ⟨hcompounds, h⟩ := Option.ite_none_right_eq_some.1 h
    cases hc : compounds with
    | true =>
      -- A leaf that compounds is negated back, and so is all that the roots make of it.
      obtain ⟨params', rfl, hrev⟩ := isReversible_of_foldr htable h
      rw [hc] at hw
      obtain ⟨hrule, hparams⟩ := Leaf.isReversible_of_wrap? htable hleaf hw
      have hleafrev := Leaf.isReversible_of_compounds hw
      exact ⟨hrule, (hrev (hparams.trans hleafrev)).trans hleafrev.symm⟩
    | false =>
      rw [hc, Bool.false_or, List.isEmpty_iff] at hcompounds
      rw [hcompounds] at h
      cases h
      exact Leaf.isReversible_of_wrap? htable hleaf hw

end Variant

end Stock

namespace Variant

variable {theme : Theme} {table : VariantTable}

theorem compound?_not (htable : VariantTable.stock theme = .ok table) {rule params : Text}
    (hrule : conditionalAtRules.contains rule = true) :
    compound? table (.static "not") (.atRule rule params)
      = some (.atRule rule (negateCondition params)) := by
  have hmem : .relation "not" .negation ∈ table.definitions := by
    rw [VariantTable.build_eq_ok htable]
    refine List.mem_append_left _ (List.mem_append_left _ (List.mem_append_left _ ?_))
    exact .tail _ (.head _)
  have hb : table.behavior? "not" = some (VariantDefinition.relation "not" .negation).behavior :=
    VariantTable.behavior?_of_build htable hmem
  rw [compound?, Atom.name, hb]
  exact if_pos hrule

/-- *Negating twice*: among the stock variants of a theme, `not` makes of every at-rule that a
    segment stands for one of the same name with another condition, and the same again of that one
    exactly if the leaf is reversible: if it is no container with a name, no function behind
    `supports`, and no bracketed at-rule with something before its first round bracket. -/
theorem compound?_not_twice_iff (htable : VariantTable.stock theme = .ok table)
    {settings : Settings} {s : Text} {v : Variant} (hv : ofText? table settings s = some v)
    {rule params : Text} (hw : v.wrap? table = some (.atRule rule params)) :
    ∃ negated, compound? table (.static "not") (.atRule rule params) = some (.atRule rule negated) ∧
      negated ≠ params ∧
      (compound? table (.static "not") (.atRule rule negated) = some (.atRule rule params) ↔
        v.leaf.isReversible = true) := by
  cases spelling_of_ofText? hv with
  | mk hchain =>
    obtain ⟨hrule, hparams⟩ := isReversible_of_wrap? htable hchain hw
    refine ⟨_, compound?_not htable hrule, negateCondition_ne params, ?_⟩
    rw [compound?_not htable hrule, ← hparams, ← negateCondition_negateCondition_iff]
    simp

/-- A negation of the dark color scheme is negated back. -/
theorem compound?_not_twice_iff_of_dark :
    let table : VariantTable := ⟨VariantTable.stockDefinitions .stock, true⟩
    let v : Variant := ⟨[.static "not"], .named (.static "dark")⟩
    let params : Text := "not (prefers-color-scheme: dark)"
    VariantTable.stock .stock = .ok table ∧ ofText? table .stock "not-dark" = some v ∧
      v.wrap? table = some (.atRule "@media" params) ∧
      ∃ negated, compound? table (.static "not") (.atRule "@media" params)
          = some (.atRule "@media" negated) ∧ negated ≠ params ∧
        compound? table (.static "not") (.atRule "@media" negated)
          = some (.atRule "@media" params) := by
  intro table v params
  have hread : ofText? table .stock "not-dark" = some v := by
    subst table v
    rw [VariantTable.stockDefinitions, VariantTable.stockBreakpoints, Theme.keysUnder_stock]
    decide +kernel
  have hwrap : v.wrap? table = some (.atRule "@media" params) := by
    subst table v
    rw [VariantTable.stockDefinitions, VariantTable.stockBreakpoints, Theme.keysUnder_stock]
    decide +kernel
  obtain ⟨negated, hnegated, hne, hback⟩ :=
    compound?_not_twice_iff VariantTable.stock_eq_ok hread hwrap
  exact ⟨VariantTable.stock_eq_ok, hread, hwrap, negated, hnegated, hne, hback.2 rfl⟩

/-- A container with a name is not: behind the name, a `not` is added to the other. -/
theorem compound?_not_twice_of_container :
    let table : VariantTable := ⟨VariantTable.stockDefinitions .stock, true⟩
    let v : Variant := ⟨[], .named (.functional "@" (.arbitrary "28rem") (some "main"))⟩
    VariantTable.stock .stock = .ok table ∧ ofText? table .stock "@[28rem]/main" = some v ∧
      v.wrap? table = some (.atRule "@container" "main (width >= 28rem)") ∧
      compound? table (.static "not") (.atRule "@container" "main (width >= 28rem)")
        = some (.atRule "@container" "main not (width >= 28rem)") ∧
      compound? table (.static "not") (.atRule "@container" "main not (width >= 28rem)")
        = some (.atRule "@container" "main not not (width >= 28rem)") := by
  intro table v
  have hread : ofText? table .stock "@[28rem]/main" = some v := by
    subst table v
    rw [VariantTable.stockDefinitions, VariantTable.stockBreakpoints, Theme.keysUnder_stock]
    decide +kernel
  have hwrap : v.wrap? table = some (.atRule "@container" "main (width >= 28rem)") := by
    subst table v
    rw [VariantTable.stockDefinitions, VariantTable.stockBreakpoints, Theme.keysUnder_stock]
    decide +kernel
  exact ⟨VariantTable.stock_eq_ok, hread, hwrap, compound?_not VariantTable.stock_eq_ok rfl,
    compound?_not VariantTable.stock_eq_ok rfl⟩

end Variant

end UtilityCss
