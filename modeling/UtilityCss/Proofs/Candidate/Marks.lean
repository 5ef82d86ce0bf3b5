import UtilityCss.Proofs.Candidate.Completeness
import UtilityCss.Proofs.Candidate.Soundness
import UtilityCss.Proofs.Session.Transparency
import UtilityCss.Proofs.Variant.Rendering

/-!
# The mark of importance

A class may bear the mark of importance at any of three places, and it means the same at each. A
class that is read without a mark is read as the same candidate with one, except that this is
important. The other way, the mark can be taken off again, if no name of the design looks like one
itself: no utility begins or ends with an exclamation mark, and no variant begins with one.

* `Text.withMark`: a text with a mark at a place;
* `Outline.ofText?_withMark`, `Outline.ofText?_of_withMark`: the pieces of the class with the mark
  and without it;
* `BaseSpelling.unmarked`, `Variant.head?_ne_of_ofText?`: a base and a segment do not look like
  marks;
* `Design.marks_agree`: the places are interchangeable, so that moving the mark to the end, as a
  finding advises, changes nothing.
-/

namespace UtilityCss

/-! ## Texts with a mark -/

namespace Text

/-- A text with a mark at a place. The base is what stands behind the last colon outside every
    group. -/
def withMark (place : MarkPlace) (s : Text) : Text :=
  match place with
  | .front => '!' :: s
  | .inside =>
    join [':'] ((s.segments ':').dropLast ++ ['!' :: (s.segments ':').getLast?.getD []])
  | .back => s ++ ['!']

/-- A text neither begins nor ends with a mark. -/
structure Unmarked (s : Text) : Prop where
  front : s.head? ≠ some '!'
  back : s.getLast? ≠ some '!'

variable {s last : Text} {parts : List Text} {place : MarkPlace}

/-- The mark inside stands in front of the last segment. -/
theorem exists_withMark_inside (h : s.segments ':' = parts ++ [last]) :
    ∃ front, s = front ++ last ∧ s.withMark .inside = front ++ '!' :: last ∧
      (s.withMark .inside).segments ':' = parts ++ ['!' :: last] := by
  obtain ⟨front, hs, hfront⟩ := exists_front h
  have hmarked : (front ++ '!' :: last).segments ':' = parts ++ ['!' :: last] := by
    rw [hfront, segments_cons (by decide) (by decide) (segments_last h)]
  have heq : s.withMark .inside = front ++ '!' :: last := by
    rw [withMark, h, List.dropLast_concat, List.getLast?_concat, Option.getD_some, ← hmarked,
      join_segments]
  exact ⟨front, hs, heq, heq ▸ hmarked⟩

theorem segments_withMark_inside (h : s.segments ':' = parts ++ [last]) :
    (s.withMark .inside).segments ':' = parts ++ ['!' :: last] := by
  obtain ⟨_, _, _, hmarked⟩ := exists_withMark_inside h
  exact hmarked

theorem segments_withMark_back (h : s.segments ':' = parts ++ [last]) :
    (s.withMark .back).segments ':' = parts ++ [last ++ ['!']] :=
  segments_concat (by decide) (by decide) h

/-- Inside, the mark stands behind the beginning of the text, or else in front of the text. -/
theorem withMark_inside (s : Text) :
    s.withMark .inside = s.withMark .front ∨ (s.withMark .inside).head? = s.head? := by
  obtain ⟨parts, last, h⟩ := s.exists_segments_eq_concat ':'
  obtain ⟨front, rfl, heq, _⟩ := exists_withMark_inside h
  rw [heq]
  cases front with
  | nil => exact .inl rfl
  | cons c front => exact .inr rfl

theorem hasBlank_withMark (place : MarkPlace) (s : Text) :
    (s.withMark place).hasBlank = s.hasBlank := by
  cases place with
  | front => rfl
  | inside =>
    obtain ⟨parts, last, h⟩ := s.exists_segments_eq_concat ':'
    obtain ⟨front, rfl, heq, _⟩ := exists_withMark_inside h
    rw [heq, hasBlank, hasBlank, List.any_append, List.any_append]
    rfl
  | back =>
    rw [withMark, hasBlank, List.any_append]
    exact Bool.or_false _

theorem isBalanced_withMark (place : MarkPlace) (s : Text) (limit : Int) :
    (s.withMark place).isBalanced limit = s.isBalanced limit := by
  cases place with
  | front => exact isBalanced_cons (by decide)
  | inside =>
    obtain ⟨parts, last, h⟩ := s.exists_segments_eq_concat ':'
    have hlast : isBalanced ('!' :: last) limit = last.isBalanced limit :=
      isBalanced_cons (by decide)
    have hcolon : Token.isPlain ':' = true := by decide
    rw [Bool.eq_iff_iff, isBalanced_iff_segments hcolon, isBalanced_iff_segments hcolon, h,
      segments_withMark_inside h]
    simp only [List.forall_mem_append, List.forall_mem_singleton, hlast]
  | back => exact isBalanced_concat (by decide)

end Text

/-! ## Pieces -/

namespace Outline

variable {settings : Settings} {o : Outline} {r : Text}

/-- With a mark the class is cut into the same pieces. -/
theorem Cut.withMark (h : o.Cut none) (hne : o.base ≠ []) (place : MarkPlace) :
    ∃ place', Cut { o with raw := o.raw.withMark place, important := true } (some place') := by
  cases h with
  | unmarked hraw hparts hhead hlast =>
    have hfront : Cut { o with raw := o.raw.withMark .front, important := true } (some .front) :=
      .front rfl hparts hhead hlast
    cases place with
    | front => exact ⟨_, hfront⟩
    | inside =>
      rcases o.raw.withMark_inside with heq | heq
      · exact ⟨_, heq ▸ hfront⟩
      · exact ⟨_, .inside (heq ▸ hraw) (Text.segments_withMark_inside hparts) hlast⟩
    | back =>
      refine ⟨_, .back ?_ (Text.segments_withMark_back hparts) hhead⟩
      rwa [Text.withMark, List.head?_append_of_ne_nil _ (Text.ne_nil_of_segments hparts hne)]

theorem ofText?_withMark (h : ofText? settings r = some o) (himportant : o.important = false)
    (place : MarkPlace) :
    ofText? settings (r.withMark place)
      = some { o with raw := r.withMark place, important := true } := by
  obtain ⟨hblank, hbalanced, rfl, hne, place₀, hcut, hplace⟩ := ofText?_eq_some.1 h
  have hnone : place₀ = none := by
    rw [himportant] at hplace
    exact Option.isNone_iff_eq_none.1 (by simpa using hplace.symm)
  subst hnone
  obtain ⟨place', hcut'⟩ := hcut.withMark hne place
  refine ofText?_eq_some.2 ⟨?_, ?_, rfl, hne, _, hcut', rfl⟩
  · rwa [Text.hasBlank_withMark]
  · rwa [Text.isBalanced_withMark]

/-- A mark in front of a text goes into its only segment, or it leaves the last one as it is. -/
theorem segments_marked {segments : List Text} {base : Text}
    (h : r.segments ':' = segments ++ [base]) :
    segments = [] ∧ Text.segments ('!' :: r) ':' = ['!' :: base] ∨
      ∃ segments', Text.segments ('!' :: r) ':' = segments' ++ [base] := by
  cases segments with
  | nil => exact .inl ⟨rfl, Text.segments_cons (by decide) (by decide) h⟩
  | cons first segments =>
    exact .inr ⟨('!' :: first) :: segments, Text.segments_cons (by decide) (by decide) h⟩

theorem concat_ne_cons {base last : Text} (hne : base ≠ []) (hlast : base.getLast? ≠ some '!') :
    last ++ ['!'] ≠ '!' :: base := by
  intro h
  have h := congrArg List.getLast? h
  rw [List.getLast?_concat, List.getLast?_cons_of_ne_nil hne] at h
  exact hlast h.symm

/-- A class with a mark in front has the pieces of the text behind the mark. -/
theorem Cut.segments_of_front {place : Option MarkPlace} (h : o.Cut place)
    (hraw : o.raw = '!' :: r) : r.segments ':' = o.segments ++ [o.base] := by
  cases h with
  | unmarked hhead | inside hhead | back hhead => exact absurd (hraw ▸ rfl) hhead
  | front hraw' hcut =>
    rw [hraw] at hraw'
    cases hraw'
    exact hcut

theorem Cut.segments_of_inside {place : Option MarkPlace} (h : o.Cut place) (hne : o.base ≠ [])
    (hraw : o.raw = r.withMark .inside) : r.segments ':' = o.segments ++ [o.base] := by
  obtain ⟨parts, last, hparts⟩ := r.exists_segments_eq_concat ':'
  have hmarked := Text.segments_withMark_inside hparts
  rw [← hraw] at hmarked
  rw [hparts, List.append_singleton_inj]
  cases h with
  | unmarked _ hcut hhead =>
    rw [hcut, List.append_singleton_inj] at hmarked
    exact absurd (hmarked.2 ▸ rfl) hhead
  | front hraw' hcut hhead =>
    rw [hraw'] at hmarked
    rcases segments_marked hcut with ⟨hnil, hcut⟩ | ⟨segments', hcut⟩
    · -- The base is the whole class, so that the mark is in front of both.
      rw [hcut, ← List.nil_append ['!' :: o.base], List.append_singleton_inj] at hmarked
      exact ⟨hmarked.1 ▸ hnil.symm, (List.cons.inj hmarked.2).2.symm⟩
    · rw [hcut, List.append_singleton_inj] at hmarked
      exact absurd (hmarked.2 ▸ rfl) hhead
  | inside _ hcut =>
    rw [hcut, List.append_singleton_inj] at hmarked
    exact ⟨hmarked.1.symm, (List.cons.inj hmarked.2).2.symm⟩
  | back _ hcut hhead =>
    rw [hcut, List.append_singleton_inj] at hmarked
    refine absurd ?_ hhead
    rw [← List.head?_append_of_ne_nil _ hne, hmarked.2]
    rfl

theorem Cut.segments_of_back {place : Option MarkPlace} (h : o.Cut place) (hne : o.base ≠ [])
    (hraw : o.raw = r.withMark .back) : r.segments ':' = o.segments ++ [o.base] := by
  obtain ⟨parts, last, hparts⟩ := r.exists_segments_eq_concat ':'
  have hmarked := Text.segments_withMark_back hparts
  rw [← hraw] at hmarked
  rw [hparts, List.append_singleton_inj]
  cases h with
  | unmarked _ hcut _ hlast =>
    rw [hcut, List.append_singleton_inj] at hmarked
    exact absurd (hmarked.2 ▸ List.getLast?_concat) hlast
  | front hraw' hcut _ hlast =>
    rw [hraw'] at hmarked
    rcases segments_marked hcut with ⟨_, hcut⟩ | ⟨segments', hcut⟩
    · rw [hcut, ← List.nil_append ['!' :: o.base], List.append_singleton_inj] at hmarked
      exact absurd hmarked.2.symm (concat_ne_cons hne hlast)
    · rw [hcut, List.append_singleton_inj] at hmarked
      exact absurd (hmarked.2 ▸ List.getLast?_concat) hlast
  | inside _ hcut hlast =>
    rw [hcut, List.append_singleton_inj] at hmarked
    exact absurd hmarked.2.symm (concat_ne_cons hne hlast)
  | back _ hcut =>
    rw [hcut, List.append_singleton_inj] at hmarked
    exact ⟨hmarked.1.symm, (List.append_singleton_inj.1 hmarked.2).1.symm⟩

/-- Where a class with a mark has pieces, they are what the text without the mark falls into. -/
theorem Cut.segments_of_withMark {place' : Option MarkPlace} (h : o.Cut place') (hne : o.base ≠ [])
    {place : MarkPlace} (hraw : o.raw = r.withMark place) :
    r.segments ':' = o.segments ++ [o.base] := by
  cases place with
  | front => exact h.segments_of_front hraw
  | inside => exact h.segments_of_inside hne hraw
  | back => exact h.segments_of_back hne hraw

/-- A class from which a mark is taken off is a text with a mark. -/
theorem Cut.exists_withMark {place : MarkPlace} (h : o.Cut (some place)) :
    ∃ place r, o.raw = Text.withMark place r := by
  cases h with
  | front hraw => exact ⟨.front, _, hraw⟩
  | inside _ hcut =>
    obtain ⟨front, hraw, hfront⟩ := Text.exists_front hcut
    -- The base is not divided, since the mark in front of it does not matter for that.
    have hbase : o.base.segments ':' = [o.base] := by
      obtain ⟨first, parts, hparts⟩ :=
        List.exists_cons_of_ne_nil (List.cons_ne_nil _ _ : o.base.segments ':' ≠ [])
      have hmarked := Text.segments_cons (c := '!') (by decide) (by decide) hparts
      rw [Text.segments_last hcut] at hmarked
      cases hmarked
      exact hparts
    have hparts := hfront o.base
    rw [hbase] at hparts
    obtain ⟨front', heq, hmarked, _⟩ := Text.exists_withMark_inside hparts
    refine ⟨.inside, front ++ o.base, ?_⟩
    rw [hmarked, hraw, List.append_cancel_right heq]
  | back _ hcut =>
    obtain ⟨front, hraw, _⟩ := Text.exists_front hcut
    exact ⟨.back, front ++ o.base, by rw [hraw, Text.withMark, List.append_assoc]⟩

/-- Without its mark a class has the same pieces, unless they look like marks. -/
theorem ofText?_of_withMark {place : MarkPlace} (h : ofText? settings (r.withMark place) = some o)
    (hfirst : ∀ s ∈ o.segments.head?, s ≠ [] ∧ s.head? ≠ some '!') (hbase : o.base.Unmarked) :
    ofText? settings r = some { o with raw := r, important := false } := by
  obtain ⟨hblank, hbalanced, hraw, hne, place', hcut, _⟩ := ofText?_eq_some.1 h
  rw [Text.hasBlank_withMark] at hblank
  rw [Text.isBalanced_withMark] at hbalanced
  have hparts := hcut.segments_of_withMark hne hraw
  have hhead : r.head? ≠ some '!' := by
    rw [← r.join_segments ':', hparts]
    cases hsegments : o.segments with
    | nil =>
      rw [List.nil_append, Text.join_singleton]
      exact hbase.front
    | cons s segments =>
      obtain ⟨hs, hhead⟩ := hfirst s (by rw [hsegments, List.head?_cons, Option.mem_def])
      rwa [List.cons_append, head?_join hs]
  exact ofText?_unmarked hblank hbalanced hparts hne hhead hbase.front hbase.back

end Outline

/-! ## Bases -/

namespace Text.Unmarked

variable {s t : Text}

theorem append (hs : s.Unmarked) (ht : t.Unmarked) : Unmarked (s ++ t) := by
  constructor
  · rw [List.head?_append]
    exact fun h => (Option.or_eq_some_iff.1 h).elim hs.front fun h => ht.front h.2
  · rw [List.getLast?_append]
    exact fun h => (Option.or_eq_some_iff.1 h).elim ht.back fun h => hs.back h.2

theorem of_not_mem (h : '!' ∉ s) : s.Unmarked :=
  ⟨fun hs => h (List.mem_of_head? hs), fun hs => h (List.mem_of_getLast? hs)⟩

theorem enclose (b : Bracket) (s : Text) : Unmarked (b.enclose s) := by
  have hopener : b.opener ≠ '!' := by cases b <;> decide
  have hcloser : b.closer ≠ '!' := by cases b <;> decide
  refine ⟨fun h => hopener (Option.some.inj h), fun h => hcloser ?_⟩
  rw [Bracket.enclose, List.getLast?_concat] at h
  exact Option.some.inj h

theorem of_isNamedValue (h : s.isNamedValue = true) : s.Unmarked :=
  of_not_mem fun hs => by cases isNameChar_of_isNamedValue h hs

end Text.Unmarked

section Base

variable {table : UtilityTable} {c : Candidate} {s : Text}

theorem UtilityTable.exists_of_any_get {name : Text} {p : UtilityEntry → Bool}
    (h : (table.get name).any p = true) : ∃ e ∈ table.entries, e.name = name := by
  obtain ⟨e, he, _⟩ := List.any_eq_true.1 h
  obtain ⟨he, hname⟩ := List.mem_filter.1 he
  exact ⟨e, he, of_decide_eq_true hname⟩

theorem ValueSpelling.unmarked {modifier : Option Modifier} {v : Value}
    (h : ValueSpelling modifier v s) : s.Unmarked := by
  cases h with
  | named hn => exact .of_isNamedValue hn
  | bracketed => exact .enclose _ _
  | custom => exact .enclose _ _

theorem EndingSpelling.unmarked {modifier : Option Modifier} (h : EndingSpelling modifier s) :
    s.Unmarked := by
  cases h with
  | none => exact .of_not_mem (by decide)
  | @slashed modifier text hm =>
    have htext : text.Unmarked := by
      cases hm with
      | named hn => exact .of_isNamedValue hn
      | bracketed => exact .enclose _ _
      | custom => exact .enclose _ _
    exact Text.Unmarked.append (s := ['/']) (.of_not_mem (by decide)) htext

theorem FrontSpelling.unmarked (hu : ∀ e ∈ table.entries, e.name.Unmarked)
    (h : FrontSpelling table c s) : s.Unmarked := by
  have hname {name : Text} {p : UtilityEntry → Bool} (h : (table.get name).any p = true) :
      name.Unmarked := by
    obtain ⟨e, he, rfl⟩ := UtilityTable.exists_of_any_get h
    exact hu e he
  cases h with
  | static _ _ _ hb => exact hname hb
  | functional _ _ _ _ hroot hvalue =>
    have hjoint : Text.Unmarked ['-'] := .of_not_mem (by decide)
    cases hroot with
    | hyphen hs _ _ hroot =>
      rw [hs]
      exact (hname hroot).append (hjoint.append hvalue.unmarked)
    | «at» _ hs _ hroot =>
      rw [hs]
      exact (hname hroot).append hvalue.unmarked
  | arbitrary => exact .enclose _ _

/-- A base neither begins nor ends with a mark, if no name in the table does. -/
theorem BaseSpelling.unmarked (hu : ∀ e ∈ table.entries, e.name.Unmarked)
    (h : BaseSpelling table c s) : s.Unmarked := by
  obtain ⟨front, ending, rfl, hfront, hending⟩ := h.parts
  have hsign : (signText c.negative).Unmarked := by
    cases c.negative <;> exact .of_not_mem (by decide)
  exact (hsign.append (hfront.unmarked hu)).append hending.unmarked

end Base

/-! ## Segments of variants -/

section Segments

variable {table : VariantTable}

theorem head?_append_ne {c : Char} {s t : Text} (hs : s.head? ≠ some c) (ht : t.head? ≠ some c) :
    (s ++ t).head? ≠ some c := by
  rw [List.head?_append]
  exact fun h => (Option.or_eq_some_iff.1 h).elim hs fun h => ht h.2

/-- What is read as a variant does not begin with a mark, if no name in the table does. -/
theorem Variant.head?_ne_of_ofText? (hv : ∀ d ∈ table.definitions, d.name.head? ≠ some '!')
    {settings : Settings} {s : Text} {v : Variant} (h : ofText? table settings s = some v) :
    s.head? ≠ some '!' := by
  have hname {name : Text} (h : table.contains name = true) : name.head? ≠ some '!' := by
    obtain ⟨behavior, hb⟩ := VariantTable.exists_behavior?_of_contains h
    obtain ⟨d, hd, rfl, _⟩ := VariantTable.exists_mem_of_behavior? hb
    exact hv d hd
  cases spelling_of_ofText? h with
  | mk hchain =>
    refine head?_append_ne ?_ (by cases v.modifier? <;> simp [renderModifier])
    cases hchain with
    | leaf hleaf =>
      cases hleaf with
      | static hfixed => exact hname (isFixed_contains hfixed)
      | functional hne _ hcontains =>
        rw [List.append_assoc, List.head?_append_of_ne_nil _ hne]
        exact hname hcontains
      | selector => exact (Text.Unmarked.enclose .square _).front
    | root houter hne =>
      obtain ⟨root, hb⟩ := houter.behavior?
      rw [List.append_assoc, List.head?_append_of_ne_nil _ hne]
      exact hname (VariantTable.contains_of_behavior? hb)

end Segments

/-! ## Classes -/

section Classes

variable {settings : Settings} {table : UtilityTable} {c : Candidate} {r : Text}

namespace Outline

variable {variants : List Variant} {raw : Text} {important : Bool}

theorem property?_with (o : Outline) :
    property? { o with raw, important } variants
      = (o.property? variants).map fun c => { c with raw, important } := by
  unfold property?
  dsimp only
  cases splitModifier? o.base with
  | none => rfl
  | some parts =>
    dsimp only
    split
    · split
      · split
        · rw [Option.map_map]
          rfl
        · rfl
      · rfl
    · rfl

theorem utility?_with (o : Outline) (negative : Bool) (name : Text) (modifier : Option Modifier) :
    utility? { o with raw, important } table variants negative name modifier
      = (o.utility? table variants negative name modifier).map fun c =>
          { c with raw, important } := by
  unfold utility?
  split
  · rfl
  · split
    · rfl
    · rw [Option.map_map]
      rfl

/-- The text of the class and its importance only pass through to the candidate. -/
theorem complete?_with (o : Outline) :
    complete? { o with raw, important } table variants
      = (o.complete? table variants).map fun c => { c with raw, important } := by
  unfold complete?
  dsimp only
  split
  · exact property?_with o
  · -- The text behind the sign is the same in both.
    generalize (if List.head? o.base = some '-' then List.tail o.base else o.base) = unsigned
    split
    · rfl
    · rw [Option.map_bind]
      exact congrArg _ (funext fun _ => utility?_with o _ _ _)

end Outline

namespace Candidate

variable {read : Text → Option Variant}

/-- A class that is read without a mark is read with one, at any place. -/
theorem ofText?_withMark (h : ofText? settings table read r = some c)
    (himportant : c.important = false) (place : MarkPlace) :
    ofText? settings table read (r.withMark place)
      = some { c with raw := r.withMark place, important := true } := by
  obtain ⟨o, variants, ho, hne, hread, hc⟩ := ofText?_eq_some.1 h
  obtain ⟨_, _, _, himportant'⟩ := Outline.complete?_sound hc
  have ho' := Outline.ofText?_withMark ho (himportant'.symm.trans himportant) place
  refine ofText?_eq_some.2 ⟨_, variants, ho', hne, hread, ?_⟩
  rw [Outline.complete?_with, hc, Option.map_some]

/-- A class that is read with a mark is read without it, if no name looks like a mark. -/
theorem ofText?_of_withMark (hu : ∀ e ∈ table.entries, e.name.Unmarked)
    (hread : ∀ s v, read s = some v → s.head? ≠ some '!') {place : MarkPlace}
    (h : ofText? settings table read (r.withMark place) = some c) :
    ofText? settings table read r = some { c with raw := r, important := false } := by
  obtain ⟨o, variants, ho, hne, hvariants, hc⟩ := ofText?_eq_some.1 h
  have hfirst : ∀ s ∈ o.segments.head?, s ≠ [] ∧ s.head? ≠ some '!' := by
    intro s hs
    have hmem := List.mem_of_head? hs
    obtain ⟨v, _, hv⟩ := List.mem_map.1 (hvariants ▸ List.mem_map_of_mem hmem)
    exact ⟨hne s hmem, hread s v hv.symm⟩
  have ho' := Outline.ofText?_of_withMark ho hfirst ((Outline.complete?_sound hc).1.unmarked hu)
  refine ofText?_eq_some.2 ⟨_, variants, ho', hne, hvariants, ?_⟩
  rw [Outline.complete?_with, hc, Option.map_some]

/-- An important candidate was read from a text with a mark. -/
theorem exists_withMark (h : ofText? settings table read r = some c)
    (himportant : c.important = true) : ∃ place s, r = Text.withMark place s := by
  obtain ⟨o, variants, ho, _, _, hc⟩ := ofText?_eq_some.1 h
  obtain ⟨_, _, _, himportant'⟩ := Outline.complete?_sound hc
  obtain ⟨_, _, rfl, _, place, hcut, hplace⟩ := Outline.ofText?_eq_some.1 ho
  obtain ⟨place, rfl⟩ := Option.isSome_iff_exists.1 (hplace.symm.trans
    (himportant'.symm.trans himportant))
  exact hcut.exists_withMark

/-- A candidate is important if its class begins with a mark. -/
theorem important_of_head? (h : ofText? settings table read ('!' :: r) = some c) :
    c.important = true := by
  obtain ⟨o, variants, ho, _, _, hc⟩ := ofText?_eq_some.1 h
  obtain ⟨_, _, _, himportant⟩ := Outline.complete?_sound hc
  obtain ⟨_, _, hraw, _, place, hcut, hplace⟩ := Outline.ofText?_eq_some.1 ho
  rw [himportant, hplace]
  cases hcut with
  | unmarked hhead => exact absurd (hraw ▸ rfl) hhead
  | front | inside | back => rfl

end Candidate

end Classes

/-! ## Designs -/

namespace Finding

/-- Only one finding bears the name of the rule about a mark in front. -/
theorem rule_ne_leadingMark (raw reason : Text) :
    (unreadable raw).rule ≠ "check_important_style" ∧
      (withoutCss raw reason).rule ≠ "check_important_style" := by
  have hparse : ("check_parse" : Text) ≠ "check_important_style" := by decide
  have hresolves : ("check_resolves" : Text) ≠ "check_important_style" := by decide
  exact ⟨hparse, hresolves⟩

theorem join_moved (before r after : Text) :
    Text.join [] [before, r, '!' :: after] = Text.join [] [before, r ++ ['!'], after] := by
  simp only [Text.join_eq_flatten, List.flatten_cons, List.flatten_nil, List.append_nil,
    List.append_assoc, List.singleton_append]

/-- The advice about a mark in front is the class with the mark at the end. -/
theorem fix_leadingMark (r : Text) :
    (leadingMark ('!' :: r)).fix = some (Text.join [] ["Use '", r ++ ['!'], "' instead."]) :=
  congrArg some (join_moved "Use '" r "' instead.")

end Finding

namespace Design

/-- Of the findings of the library, only the one about a mark in front bears its name. -/
theorem leadingMark_of_mem {d : Design} {raw : Text} {found : List Finding} {f : Finding}
    (h : d.libraryFindings raw = .ok found) (hf : f ∈ found)
    (hrule : f.rule = "check_important_style".toList) :
    ∃ c, d.candidateOf? raw = some c ∧ raw.head? = some '!' ∧ f = .leadingMark raw := by
  unfold libraryFindings at h
  split at h
  · cases h
    rw [List.mem_singleton.1 hf] at hrule
    exact absurd hrule (Finding.rule_ne_leadingMark raw []).1
  · next c hc =>
    obtain ⟨compilation, _, rfl⟩ := map_eq_ok.1 h
    rcases List.mem_append.1 hf with hf | hf
    · obtain ⟨reason, _, rfl⟩ := Option.map_eq_some_iff.1 (Option.mem_toList.1 hf)
      exact absurd hrule (Finding.rule_ne_leadingMark raw reason.message).2
    · obtain ⟨hhead, hf⟩ := List.mem_ite_nil_right.1 hf
      exact ⟨c, hc, hhead, List.mem_singleton.1 hf⟩

/-- The places of the mark are interchangeable. What is read without a mark is read with one at any
    place, as the same candidate but for its importance. If no variant begins with a mark, it is
    read the same again once the mark of an important class is taken off, from wherever it stands.
    Then the advice to move a mark from the front to the end leads to the same candidate. -/
theorem marks_agree (d : Design) (hu : ∀ e ∈ d.utilities.entries, e.name.Unmarked) :
    (∀ r c, d.candidateOf? r = some c → c.important = false → ∀ place,
      d.candidateOf? (r.withMark place)
        = some { c with raw := r.withMark place, important := true }) ∧
      ((∀ v ∈ d.variants.definitions, v.name.head? ≠ some '!') →
        (∀ raw c, d.candidateOf? raw = some c → c.important = true →
          (∃ place r, raw = Text.withMark place r) ∧
            ∀ place r, raw = Text.withMark place r →
              d.candidateOf? r = some { c with raw := r, important := false }) ∧
        ∀ raw found f, d.libraryFindings raw = .ok found → f ∈ found →
          f.rule = "check_important_style".toList →
          ∃ r c, raw = '!' :: r ∧ d.candidateOf? raw = some c ∧
            f.fix = some (Text.join [] ["Use '", r ++ ['!'], "' instead."]) ∧
            d.candidateOf? (r ++ ['!']) = some { c with raw := r ++ ['!'] }) := by
  refine ⟨fun r c h himportant place => Candidate.ofText?_withMark h himportant place, fun hv => ?_⟩
  have hread (s : Text) (v : Variant) (h : d.variantOf? s = some v) : s.head? ≠ some '!' :=
    Variant.head?_ne_of_ofText? hv h
  refine ⟨fun raw c h himportant => ⟨Candidate.exists_withMark h himportant, ?_⟩, ?_⟩
  · rintro place r rfl
    exact Candidate.ofText?_of_withMark hu hread h
  · intro raw found f hfound hf hrule
    obtain ⟨c, hc, hhead, rfl⟩ := leadingMark_of_mem hfound hf hrule
    obtain ⟨r, rfl⟩ := List.head?_eq_some_iff.1 hhead
    refine ⟨r, c, rfl, hc, Finding.fix_leadingMark r, ?_⟩
    -- Without the mark the class is read, so with a mark at the end it is, too.
    have hplain : d.candidateOf? r = some { c with raw := r, important := false } :=
      @Candidate.ofText?_of_withMark _ _ _ _ _ hu hread .front hc
    have hmoved := Candidate.ofText?_withMark hplain rfl .back
    have himportant : c.important = true := Candidate.important_of_head? hc
    rw [← himportant] at hmoved
    exact hmoved

/-- A design with two utilities and one variant. -/
def spaced : Design :=
  { tiny with utilities := .gaps, utilities_frozen := rfl }

/-- A negative value with a modifier behind a variant, with a mark in front of the base and without
    it. -/
theorem marks_agree_of_spaced :
    let r : Text := "hover:-gap-x-1/(--x)"
    let c : Candidate :=
      { raw := r, kind := .functional, root := "gap-x",
        value := some (.named "1" none), modifier := some (.arbitrary "var(--x)"),
        variants := [⟨[], .named (.static "hover")⟩], important := false, negative := true,
        property := none }
    (∀ e ∈ spaced.utilities.entries, e.name.Unmarked) ∧
      (∀ v ∈ spaced.variants.definitions, v.name.head? ≠ some '!') ∧
      r.withMark .inside = "hover:!-gap-x-1/(--x)".toList ∧
      spaced.candidateOf? (r.withMark .inside)
        = some { c with raw := r.withMark .inside, important := true } ∧
      spaced.candidateOf? r = some c := by
  intro r c
  have hu : ∀ e ∈ spaced.utilities.entries, e.name.Unmarked := fun e he =>
    have hall : spaced.utilities.entries.all fun e => decide ('!' ∉ e.name) := by decide
    .of_not_mem (of_decide_eq_true (List.all_eq_true.1 hall e he))
  have hv : ∀ v ∈ spaced.variants.definitions, v.name.head? ≠ some '!' := by decide
  have hinside : r.withMark .inside = "hover:!-gap-x-1/(--x)".toList := by decide
  have h : spaced.candidateOf? r = some c := rfl
  have hmarked := (marks_agree spaced hu).1 r c h rfl .inside
  have hplain := (((marks_agree spaced hu).2 hv).1 _ _ hmarked rfl).2 .inside r rfl
  exact ⟨hu, hv, hinside, hmarked, hplain⟩

/-- A design with a variant whose name begins with an exclamation mark. -/
def shouting : Design :=
  { tiny with
    variants := ⟨[⟨"!v", .fixed (.selector "&:hover") true⟩], true⟩
    variants_frozen := rfl }

/-- Behind a variant that begins like a mark the places are not interchangeable. With a mark in
    front the class is read; without it, the variant is taken for a mark, and with the mark at the
    end, as the finding advises, there are two of them. -/
theorem marks_part_of_shouting :
    let raw : Text := "!!v:underline"
    (∀ e ∈ shouting.utilities.entries, '!' ∉ e.name) ∧
      (shouting.candidateOf? raw).map (·.important) = some true ∧
      raw = Text.withMark .front "!v:underline" ∧
      shouting.candidateOf? "!v:underline" = none ∧
      shouting.libraryFindings raw = .ok [.leadingMark raw] ∧
      shouting.candidateOf? (raw.tail ++ ['!']) = none := by
  refine ⟨by decide, ?_, rfl, ?_, rfl, ?_⟩
  · decide +kernel
  · decide +kernel
  · decide +kernel

end Design

end UtilityCss
