import Mathlib.Data.List.Basic
import Mathlib.Data.List.Sort
import UtilityCss.Proofs.Bracket.Roots

/-!
# The search for roots

The splits of a text into a known name and the text for its value can be told by their places, that
is, by the positions of the hyphens. They can also be *searched from the back*: the last hyphen in
front of all brackets is looked for, then the last one in front of that, and so on, until none is
left, or the name would be empty. All this is the same.

* `Text.IsSplitPlace`: the positions at which a text splits;
* `Text.SplitsAt`: the splits at all such positions, the last position first;
* `Text.lastHyphen?`, `Text.searchFrom`: a step of the search, and the search below a position;
* `Text.rootSplits_exact`: what is offered is what stands at the places, and what the search finds.
-/

namespace UtilityCss

namespace Text

variable {isRoot : Text → Bool} {s : Text}

/-! ## Places -/

/-- A text splits at a position, if a hyphen stands there in front of all brackets, and behind a
    name that is known and not empty. -/
def IsSplitPlace (isRoot : Text → Bool) (s : Text) (place : Nat) : Prop :=
  0 < place ∧ s[place]? = some '-' ∧ BracketFree (s.take place) ∧ isRoot (s.take place) = true

/-- The splits of a text at all positions with a property, the last position first. A split leaves
    out the character at its position. -/
def SplitsAt (isPlace : Nat → Prop) (s : Text) (splits : List (Text × Text)) : Prop :=
  ∃ places : List Nat, places.Pairwise (· > ·) ∧ (∀ place, place ∈ places ↔ isPlace place) ∧
    splits = places.map fun place => (s.take place, s.drop (place + 1))

/-- There is only one row of all splits. -/
theorem SplitsAt.eq {isPlace : Nat → Prop} {splits splits' : List (Text × Text)}
    (h : SplitsAt isPlace s splits) (h' : SplitsAt isPlace s splits') : splits = splits' := by
  obtain ⟨places, hsorted, hmem, rfl⟩ := h
  obtain ⟨places', hsorted', hmem', rfl⟩ := h'
  have hplaces : places = places' :=
    hsorted.eq_of_mem_iff hsorted' fun place => (hmem place).trans (hmem' place).symm
  rw [hplaces]

theorem take_drop_of_eq {root value : Text} (h : s = root ++ '-' :: value) :
    s[root.length]? = some '-' ∧ s.take root.length = root ∧ s.drop (root.length + 1) = value := by
  subst h
  simp

theorem eq_of_hyphen_at {place : Nat} (h : s[place]? = some '-') :
    s = s.take place ++ '-' :: s.drop (place + 1) ∧ (s.take place).length = place := by
  obtain ⟨hlt, hget⟩ := List.getElem?_eq_some_iff.1 h
  constructor
  · rw [← hget, List.getElem_cons_drop, List.take_append_drop]
  · exact List.length_take_of_le (Nat.le_of_lt hlt)

theorem isSplitPlace_iff {place : Nat} :
    IsSplitPlace isRoot s place ↔ ∃ split ∈ hyphenRoots s isRoot, split.1.length = place := by
  constructor
  · rintro ⟨hpos, hhyphen, hfree, hroot⟩
    obtain ⟨hs, hlength⟩ := eq_of_hyphen_at hhyphen
    have hne : s.take place ≠ [] := List.ne_nil_of_length_pos (hlength.symm ▸ hpos)
    exact ⟨_, mem_hyphenRoots.2 ⟨hs, hne, hfree, hroot⟩, hlength⟩
  · rintro ⟨⟨root, value⟩, hmem, rfl⟩
    obtain ⟨hs, hne, hfree, hroot⟩ := mem_hyphenRoots.1 hmem
    obtain ⟨hhyphen, htake, _⟩ := take_drop_of_eq hs
    rw [IsSplitPlace, htake]
    exact ⟨List.length_pos_of_ne_nil hne, hhyphen, hfree, hroot⟩

/-- The splits at hyphens that are offered are those at all places. -/
theorem splitsAt_hyphenRoots : SplitsAt (IsSplitPlace isRoot s) s (hyphenRoots s isRoot) := by
  refine ⟨(hyphenRoots s isRoot).map (·.1.length), ?_, fun place => ?_, ?_⟩
  · rw [List.pairwise_map]
    exact pairwise_hyphenRoots s isRoot
  · rw [List.mem_map, isSplitPlace_iff]
  · rw [List.map_map]
    refine (List.map_id _).symm.trans (List.map_congr_left ?_)
    rintro ⟨root, value⟩ hmem
    obtain ⟨_, htake, hdrop⟩ := take_drop_of_eq (mem_hyphenRoots.1 hmem).1
    exact Prod.ext htake.symm hdrop.symm

/-! ## The search -/

/-- The position of the last hyphen in front of a position. -/
def lastHyphen? (s : Text) : Nat → Option Nat
  | 0 => none
  | limit + 1 => if s[limit]? = some '-' then some limit else lastHyphen? s limit

theorem lastHyphen?_eq_none {limit : Nat} :
    s.lastHyphen? limit = none ↔ ∀ place < limit, s[place]? ≠ some '-' := by
  induction limit with
  | zero => simp [lastHyphen?]
  | succ limit ih =>
    rw [lastHyphen?, Nat.forall_lt_succ_right, ← ih]
    split_ifs with hhyphen
    · simp [hhyphen]
    · simp [hhyphen]

theorem lastHyphen?_eq_some {limit place : Nat} :
    s.lastHyphen? limit = some place ↔ place < limit ∧ s[place]? = some '-' ∧
      ∀ later < limit, s[later]? = some '-' → later ≤ place := by
  induction limit with
  | zero => simp [lastHyphen?]
  | succ limit ih =>
    rw [lastHyphen?]
    split_ifs with hhyphen
    · constructor
      · rintro ⟨⟩
        exact ⟨Nat.lt_succ_self _, hhyphen, fun later hlater _ => Nat.le_of_lt_succ hlater⟩
      · rintro ⟨hlt, _, hlast⟩
        rw [Nat.le_antisymm (Nat.le_of_lt_succ hlt) (hlast limit (Nat.lt_succ_self _) hhyphen)]
    · rw [ih, Nat.forall_lt_succ_right]
      constructor
      · rintro ⟨hlt, hplace, hlast⟩
        exact ⟨Nat.lt_succ_of_lt hlt, hplace, hlast, fun h => absurd h hhyphen⟩
      · rintro ⟨hlt, hplace, hlast, _⟩
        have hne : place ≠ limit := by
          rintro rfl
          exact hhyphen hplace
        exact ⟨Nat.lt_of_le_of_ne (Nat.le_of_lt_succ hlt) hne, hplace, hlast⟩

/-- A hyphen stands at a position in front of a limit, behind a name that is known and not empty. -/
def IsHyphenBelow (isRoot : Text → Bool) (s : Text) (limit place : Nat) : Prop :=
  place < limit ∧ s[place]? = some '-' ∧ 0 < place ∧ isRoot (s.take place) = true

theorem not_isHyphenBelow {limit place : Nat} (h : s.lastHyphen? limit = none) :
    ¬ IsHyphenBelow isRoot s limit place :=
  fun ⟨hlt, hhyphen, _⟩ => lastHyphen?_eq_none.1 h place hlt hhyphen

/-- What is searched for in front of a limit is at the last hyphen, or else in front of that. -/
theorem isHyphenBelow_iff {limit last place : Nat} (h : s.lastHyphen? limit = some last) :
    IsHyphenBelow isRoot s limit place ↔
      (place = last ∧ 0 < last ∧ isRoot (s.take last) = true) ∨ IsHyphenBelow isRoot s last place := by
  obtain ⟨hlt, hhyphen, hlast⟩ := lastHyphen?_eq_some.1 h
  constructor
  · rintro ⟨hplace, hhyphen', hpos, hroot⟩
    rcases Nat.lt_or_eq_of_le (hlast place hplace hhyphen') with hbelow | rfl
    · exact .inr ⟨hbelow, hhyphen', hpos, hroot⟩
    · exact .inl ⟨rfl, hpos, hroot⟩
  · rintro (⟨rfl, hpos, hroot⟩ | ⟨hbelow, hhyphen', hpos, hroot⟩)
    · exact ⟨hlt, hhyphen, hpos, hroot⟩
    · exact ⟨Nat.lt_trans hbelow hlt, hhyphen', hpos, hroot⟩

/-- The splits that are found in front of a position. The search ends at the front of the text,
    where the name would be empty. -/
def searchFrom (s : Text) (isRoot : Text → Bool) (limit : Nat) : List (Text × Text) :=
  match _h : s.lastHyphen? limit with
  | none => []
  | some 0 => []
  | some (last + 1) =>
    if isRoot (s.take (last + 1)) then
      (s.take (last + 1), s.drop (last + 2)) :: searchFrom s isRoot (last + 1)
    else searchFrom s isRoot (last + 1)
termination_by limit
decreasing_by all_goals exact (lastHyphen?_eq_some.1 ‹_›).1

/-- The search finds the splits at all hyphens in front of a position that stand behind a known
    name. -/
theorem splitsAt_searchFrom (s : Text) (isRoot : Text → Bool) (limit : Nat) :
    SplitsAt (IsHyphenBelow isRoot s limit) s (searchFrom s isRoot limit) := by
  fun_induction searchFrom s isRoot limit with
  | case1 limit hnone =>
    exact ⟨[], .nil, fun _ => iff_of_false List.not_mem_nil (not_isHyphenBelow hnone), rfl⟩
  | case2 limit hzero =>
    -- The only hyphen that is left stands at the front, behind no name.
    refine ⟨[], .nil, fun place => iff_of_false List.not_mem_nil ?_, rfl⟩
    rw [isHyphenBelow_iff hzero]
    rintro (⟨_, hpos, _⟩ | ⟨hlt, _⟩)
    · exact Nat.lt_irrefl 0 hpos
    · exact Nat.not_lt_zero place hlt
  | case3 limit last hlast hroot ih =>
    obtain ⟨places, hsorted, hmem, hsplits⟩ := ih
    refine ⟨(last + 1) :: places, ?_, fun place => ?_, ?_⟩
    · exact List.pairwise_cons.2 ⟨fun place hplace => ((hmem place).1 hplace).1, hsorted⟩
    · simp [isHyphenBelow_iff hlast, hmem, hroot]
    · rw [hsplits, List.map_cons]
  | case4 limit last hlast hroot ih =>
    obtain ⟨places, hsorted, hmem, hsplits⟩ := ih
    refine ⟨places, hsorted, fun place => ?_, hsplits⟩
    simp [isHyphenBelow_iff hlast, hmem, hroot]

/-- The position of the first bracket, or the end of the text. -/
def firstBracket (s : Text) : Nat :=
  min (s.idxOf '[') (s.idxOf '(')

theorem lt_idxOf_iff {c : Char} {place : Nat} (hlt : place < s.length) :
    place < s.idxOf c ↔ c ∉ s.take (place + 1) := by
  by_cases hc : c ∈ s
  · rw [List.mem_take_iff_idxOf_lt hc, Nat.lt_succ_iff, Nat.not_le]
  · rw [List.idxOf_eq_length hc]
    exact iff_of_true hlt fun h => hc (List.mem_of_mem_take h)

theorem lt_firstBracket_iff {place : Nat} (h : s[place]? = some '-') :
    place < s.firstBracket ↔ BracketFree (s.take place) := by
  obtain ⟨hlt, _⟩ := List.getElem?_eq_some_iff.1 h
  -- The hyphen itself is no bracket, so that it does not matter whether it is looked at.
  have htake : s.take (place + 1) = s.take place ++ ['-'] := by
    rw [List.take_add_one, h, Option.toList_some]
  rw [firstBracket, Nat.lt_min, lt_idxOf_iff hlt, lt_idxOf_iff hlt, htake]
  simp [BracketFree]

theorem isHyphenBelow_firstBracket {place : Nat} :
    IsHyphenBelow isRoot s s.firstBracket place ↔ IsSplitPlace isRoot s place := by
  constructor
  · rintro ⟨hlt, hhyphen, hpos, hroot⟩
    exact ⟨hpos, hhyphen, (lt_firstBracket_iff hhyphen).1 hlt, hroot⟩
  · rintro ⟨hpos, hhyphen, hfree, hroot⟩
    exact ⟨(lt_firstBracket_iff hhyphen).2 hfree, hhyphen, hpos, hroot⟩

/-- The search in front of the first bracket finds the splits that are offered at hyphens. -/
theorem searchFrom_firstBracket :
    searchFrom s isRoot s.firstBracket = hyphenRoots s isRoot := by
  have hplaces : IsHyphenBelow isRoot s s.firstBracket = IsSplitPlace isRoot s := by
    funext place
    exact propext isHyphenBelow_firstBracket
  exact (hplaces ▸ splitsAt_searchFrom s isRoot s.firstBracket).eq splitsAt_hyphenRoots

/-! ## All splits -/

/-- The split behind the name `@`, if the text begins with it and goes on, and the name is known. -/
def splitBehindAt (s : Text) (isRoot : Text → Bool) : List (Text × Text) :=
  if s.startsWith "@" ∧ 1 < s.length ∧ isRoot "@" then [("@".toList, s.drop 1)] else []

theorem splitBehindAt_eq (s : Text) (isRoot : Text → Bool) :
    splitBehindAt s isRoot = atRoot s isRoot := by
  unfold atRoot
  split
  · next value =>
    rcases value with _ | ⟨c, value⟩
    · rfl
    · simp [splitBehindAt, startsWith]
  · next h =>
    refine if_neg ?_
    rintro ⟨hat, _⟩
    obtain ⟨value, rfl⟩ := List.isPrefixOf_iff_prefix.1 hat
    exact h value rfl

/-- *The offered splits are exact*: what is offered are the splits at all hyphens in front of the
    brackets that stand behind a known name, the last hyphen first, and then the split behind the
    name `@`, if there is one. A search from the back finds the same. -/
theorem rootSplits_exact (s : Text) (isRoot : Text → Bool) :
    (∃ splits, SplitsAt (IsSplitPlace isRoot s) s splits ∧
      rootSplits s isRoot = splits ++ splitBehindAt s isRoot) ∧
    rootSplits s isRoot = searchFrom s isRoot s.firstBracket ++ splitBehindAt s isRoot := by
  rw [rootSplits_eq, splitBehindAt_eq, searchFrom_firstBracket]
  exact ⟨⟨_, splitsAt_hyphenRoots, rfl⟩, rfl⟩

/-- Of two hyphens side by side, each splits the text, and a hyphen at the front does not. -/
example : rootSplits "-a--b[-" (fun _ => true)
    = ([("-a-", "b[-"), ("-a", "-b[-")] : List (Text × Text)) := by
  decide

end Text

end UtilityCss
