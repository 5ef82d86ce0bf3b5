import UtilityCss.Proofs.Candidate.Reading

/-!
# What is written is read

A class with a named value is written from its parts: the segments of its variants, a sign, a
root, a key and a modifier. Read again, it gives these parts and no others
(`Candidate.ofText?_complete`).

Every step of reading has to cut at the places where the parts were joined. No character of a
root, a key or a modifier is one that a step looks for (`inert_of_isNameChar`), except for the
hyphens, and there the root is the longest one. The segments may hold brackets and quotes, but
each is balanced and undivided by itself (`IsSegment`), so that the cut after it is outside every
group.
-/

namespace UtilityCss

/-! ## The parts of a class -/

/-- A segment that stays together: no group, quote or backslash in it reaches beyond its end, and
    nothing divides it. -/
structure IsSegment (settings : Settings) (s : Text) : Prop where
  ne_nil : s ≠ []
  unblank : s.hasBlank = false
  unescaped : '\\' ∉ s
  balanced : s.isBalanced settings.maxOpenGroups = true
  undivided : s.segments ':' = [s]

/-- A name of letters, digits and hyphens that begins with a letter. -/
structure IsRootName (root : Text) : Prop where
  letter : root.head?.any Char.isAlpha = true
  chars : root.all (isAlphanumericOr ['-']) = true

/-- The base that is written from a sign, a root, a key and a modifier. -/
def writtenBase (negative : Bool) (root key : Text) (modifier : Option Text) : Text :=
  signText negative ++ (root ++ '-' :: key ++ renderModifier modifier)

namespace IsRootName

variable {root : Text}

theorem ne_nil (h : IsRootName root) : root ≠ [] := by
  rintro rfl
  cases h.letter

theorem isNameChar (h : IsRootName root) {c : Char} (hc : c ∈ root) : isNameChar c = true := by
  have hc := List.all_eq_true.1 h.chars c hc
  simp only [isAlphanumericOr, Bool.or_eq_true] at hc
  simp only [UtilityCss.isNameChar, isAlphanumericOr, Bool.or_eq_true]
  refine hc.imp_right fun hc => ?_
  simp only [List.contains_iff_mem, List.mem_singleton] at hc
  rw [hc]
  rfl

/-- A root does not begin like a sign. -/
theorem head?_ne (h : IsRootName root) : root.head? ≠ some '-' := by
  intro hs
  have := h.letter
  rw [hs] at this
  cases this

theorem bracketFree (h : IsRootName root) : Text.BracketFree root := by
  constructor
  · intro hc
    cases (h.isNameChar hc)
  · intro hc
    cases (h.isNameChar hc)

end IsRootName

section Base

variable {front root key : Text} {modifier : Option Text} {negative : Bool}

theorem inert_of_isNamedValue {s : Text} (h : s.isNamedValue = true) :
    ∀ c ∈ s, isInert c = true ∧ c ≠ '/' :=
  fun _ hc => inert_of_isNameChar (isNameChar_of_isNamedValue h hc)

/-- No character of a base is one that cuts a class. -/
theorem inert_base (hfront : ∀ c ∈ front, isNameChar c = true)
    (hmodifier : ∀ m ∈ modifier, m.isNamedValue = true) :
    ∀ c ∈ signText negative ++ (front ++ renderModifier modifier), isInert c = true := by
  intro c hc
  rcases List.mem_append.1 hc with hc | hc
  · cases negative with
    | false => cases hc
    | true =>
      rw [List.mem_singleton.1 hc]
      rfl
  · rcases List.mem_append.1 hc with hc | hc
    · exact (inert_of_isNameChar (hfront c hc)).1
    · cases modifier with
      | none => cases hc
      | some m =>
        rcases List.mem_cons.1 hc with rfl | hc
        · rfl
        · exact (inert_of_isNamedValue (hmodifier m rfl) c hc).1

theorem base_ne_nil (hne : front ≠ []) :
    signText negative ++ (front ++ renderModifier modifier) ≠ [] :=
  List.append_ne_nil_of_right_ne_nil _ (List.append_ne_nil_of_left_ne_nil hne _)

/-- A base is cut at its slash. -/
theorem splitModifier?_front (hfront : ∀ c ∈ front, isNameChar c = true) (hne : front ≠ [])
    (hmodifier : ∀ m ∈ modifier, m.isNamedValue = true) :
    splitModifier? (front ++ renderModifier modifier) = some (front, modifier.map .named) := by
  have hplain {s : Text} (h : ∀ c ∈ s, isInert c = true ∧ c ≠ '/') :
      (∀ c ∈ s, Token.isPlain c = true) ∧ '/' ∉ s :=
    ⟨fun c hc => (isInert_iff.1 (h c hc).1).1, fun hc => (h '/' hc).2 rfl⟩
  obtain ⟨hchars, hslash⟩ := hplain fun c hc => inert_of_isNameChar (hfront c hc)
  cases modifier with
  | none =>
    rw [renderModifier, List.append_nil]
    exact splitModifier?_eq_some.2 (.inl ⟨Text.segments_plain hchars hslash, rfl⟩)
  | some m =>
    have hm := hmodifier m rfl
    obtain ⟨hmchars, hmslash⟩ := hplain (inert_of_isNamedValue hm)
    refine splitModifier?_eq_some.2 (.inr ⟨m, .named m, ?_, hne, ?_, .named hm, rfl⟩)
    · rw [renderModifier, Text.segments_plain_append hchars hslash rfl,
        Text.segments_plain hmchars hmslash]
    · rintro rfl
      cases hm

/-- A base without brackets is completed by what stands between its sign and its modifier. -/
theorem Outline.complete?_front {raw : Text} {segments : List Text} {table : UtilityTable}
    {variants : List Variant} {important : Bool} (hfront : ∀ c ∈ front, isNameChar c = true)
    (hne : front ≠ []) (hhead : front.head? ≠ some '-')
    (hmodifier : ∀ m ∈ modifier, m.isNamedValue = true) :
    let o : Outline :=
      ⟨raw, segments, signText negative ++ (front ++ renderModifier modifier), important⟩
    o.complete? table variants
      = o.utility? table variants negative front (modifier.map .named) := by
  intro o
  have hb : o.base.head? ≠ some '[' := fun h => by
    cases inert_base hfront hmodifier '[' (List.mem_of_head? h)
  -- Only a sign puts a hyphen in front.
  have hsign : o.base.head? = some '-' ↔ negative = true := by
    cases negative with
    | true => exact ⟨fun _ => rfl, fun _ => rfl⟩
    | false =>
      refine ⟨fun h => absurd ?_ hhead, fun h => by cases h⟩
      obtain ⟨c, rest, rfl⟩ := List.exists_cons_of_ne_nil hne
      exact h
  have hunsigned : (if negative = true then o.base.tail else o.base)
      = front ++ renderModifier modifier := by
    cases negative <;> rfl
  have hempty : (front ++ renderModifier modifier).isEmpty = false := by
    simp [hne]
  rw [complete?, if_neg hb]
  simp only [hsign, Bool.decide_eq_true, hunsigned, hempty,
    splitModifier?_front hfront hne hmodifier]
  rfl

theorem isNameChar_front (hroot : IsRootName root) (hkey : key.isNamedValue = true) :
    ∀ c ∈ root ++ '-' :: key, isNameChar c = true := by
  intro c hc
  rcases List.mem_append.1 hc with hc | hc
  · exact hroot.isNameChar hc
  · rcases List.mem_cons.1 hc with rfl | hc
    · rfl
    · exact isNameChar_of_isNamedValue hkey hc

theorem IsRootName.head?_append_ne (hroot : IsRootName root) (s : Text) :
    (root ++ s).head? ≠ some '-' := by
  obtain ⟨c, rest, rfl⟩ := List.exists_cons_of_ne_nil hroot.ne_nil
  exact hroot.head?_ne

/-- A base is completed to the candidate that it is written from. -/
theorem Outline.complete?_written {raw : Text} {segments : List Text} {table : UtilityTable}
    {variants : List Variant} {important : Bool} (hroot : IsRootName root)
    (htakes : table.takesValue root = true) (hkey : key.isNamedValue = true)
    (hmodifier : ∀ m ∈ modifier, m.isNamedValue = true)
    (hbare : table.standsBare (root ++ '-' :: key) = false)
    (hlongest : ∀ longer rest, root ++ '-' :: key = longer ++ '-' :: rest →
      root.length < longer.length → table.takesValue longer = false) :
    complete? ⟨raw, segments, writtenBase negative root key modifier, important⟩ table variants
      = some { raw, kind := .functional, root,
               value := some (.named key (fractionOf key (modifier.map .named))),
               modifier := modifier.map .named, variants, important, negative,
               property := none } := by
  rw [writtenBase, complete?_front (isNameChar_front hroot hkey) (by simp)
    (hroot.head?_append_ne _) hmodifier]
  refine utility?_eq_some.2 (.inr ⟨hbare, root, key, .named key none, ?_, .named hkey, ?_⟩)
  · exact .hyphen rfl hroot.ne_nil hroot.bracketFree htakes
      fun longer rest hs hlt _ => hlongest longer rest hs hlt
  · rw [Value.withFraction_named]

end Base

/-! ## Classes -/

section Class

variable {settings : Settings} {segments : List Text} {base : Text}

/-- A class without a mark has the pieces that it is cut into. -/
theorem Outline.ofText?_unmarked {raw : Text} (hblank : raw.hasBlank = false)
    (hbalanced : raw.isBalanced settings.maxOpenGroups = true)
    (hsegments : raw.segments ':' = segments ++ [base]) (hne : base ≠ [])
    (hfront : raw.head? ≠ some '!') (hinside : base.head? ≠ some '!')
    (hback : base.getLast? ≠ some '!') :
    ofText? settings raw = some ⟨raw, segments, base, false⟩ :=
  ofText?_eq_some.2 ⟨hblank, hbalanced, rfl, hne, none,
    .unmarked hfront hsegments hinside hback, rfl⟩

theorem hasBlank_join {parts : List Text} (h : ∀ s ∈ parts, s.hasBlank = false) :
    (Text.join [':'] parts).hasBlank = false := by
  induction parts with
  | nil => rfl
  | cons s parts ih =>
    obtain ⟨hs, h⟩ := List.forall_mem_cons.1 h
    cases parts with
    | nil => rwa [Text.join_singleton]
    | cons s' parts =>
      rw [Text.join_cons_cons, Text.hasBlank, List.any_append, List.any_append]
      exact (Bool.or_eq_false_iff.2 ⟨Bool.or_eq_false_iff.2 ⟨hs, rfl⟩, ih h⟩)

/-- A class begins as its first part does. -/
theorem head?_join {s : Text} (hs : s ≠ []) (parts : List Text) :
    (Text.join [':'] (s :: parts)).head? = s.head? := by
  obtain ⟨c, s, rfl⟩ := List.exists_cons_of_ne_nil hs
  rw [Text.join_cons_left, List.head?_cons, List.head?_cons]

/-- A class of segments and a base without a mark falls into them. -/
theorem Outline.ofText?_written (hsegments : ∀ s ∈ segments, IsSegment settings s)
    (hfirst : ∀ s ∈ segments.head?, s.head? ≠ some '!') (hbase : ∀ c ∈ base, isInert c = true)
    (hne : base ≠ []) :
    ofText? settings (Text.join [':'] (segments ++ [base]))
      = some ⟨Text.join [':'] (segments ++ [base]), segments, base, false⟩ := by
  have hbase : ∀ c ∈ base, Token.isPlain c = true ∧ isBlank c = false ∧ c ≠ ':' ∧ c ≠ '!' :=
    fun c hc => isInert_iff.1 (hbase c hc)
  have hplain : ∀ c ∈ base, Token.isPlain c = true := fun c hc => (hbase c hc).1
  have hcolon : ':' ∉ base := fun hc => (hbase ':' hc).2.2.1 rfl
  have hmark : '!' ∉ base := fun hc => (hbase '!' hc).2.2.2 rfl
  have hparts : ∀ s ∈ segments, '\\' ∉ s ∧ s.isBalanced settings.maxOpenGroups = true ∧
      s.segments ':' = [s] := fun s hs =>
    ⟨(hsegments s hs).unescaped, (hsegments s hs).balanced, (hsegments s hs).undivided⟩
  refine ofText?_unmarked ?_ ?_ ?_ hne ?_ ?_ ?_
  · refine hasBlank_join fun s hs => ?_
    rcases List.mem_append.1 hs with hs | hs
    · exact (hsegments s hs).unblank
    · rw [List.mem_singleton.1 hs, Text.hasBlank, List.any_eq_false]
      exact fun c hc => ne_true_of_eq_false (hbase c hc).2.1
  · exact Text.isBalanced_join rfl (fun s hs => ⟨(hparts s hs).1, (hparts s hs).2.1⟩)
      (Text.isBalanced_plain hplain)
  · exact Text.segments_join rfl hparts (Text.segments_plain hplain hcolon)
  · cases segments with
    | nil =>
      rw [List.nil_append, Text.join_singleton]
      exact fun h => hmark (List.mem_of_head? h)
    | cons s segments =>
      rw [List.cons_append, head?_join (hsegments s List.mem_cons_self).ne_nil]
      exact hfirst s rfl
  · exact fun h => hmark (List.mem_of_head? h)
  · exact fun h => hmark (List.mem_of_getLast? h)

/-- A class is read as the parts that it is written from: the variants of its segments, its
    sign, its root with its key, and its modifier. A key and a modifier that are numerals form a
    fraction besides. -/
theorem Candidate.ofText?_complete {table : UtilityTable} {read : Text → Option Variant}
    {stack : List (Text × Variant)} {root key : Text} {modifier : Option Text} (negative : Bool)
    (hstack : ∀ p ∈ stack, IsSegment settings p.1 ∧ read p.1 = some p.2)
    (hfirst : ∀ p ∈ stack.head?, p.1.head? ≠ some '!')
    (hroot : IsRootName root) (htakes : table.takesValue root = true)
    (hkey : key.isNamedValue = true) (hmodifier : ∀ m ∈ modifier, m.isNamedValue = true)
    (hbare : table.standsBare (root ++ '-' :: key) = false)
    (hlongest : ∀ longer rest, root ++ '-' :: key = longer ++ '-' :: rest →
      root.length < longer.length → table.takesValue longer = false) :
    let raw := Text.join [':'] (stack.map Prod.fst ++ [writtenBase negative root key modifier])
    ofText? settings table read raw
      = some { raw, kind := .functional, root,
               value := some (.named key (fractionOf key (modifier.map .named))),
               modifier := modifier.map .named, variants := stack.map Prod.snd,
               important := false, negative, property := none } := by
  intro raw
  have hsegments : ∀ s ∈ stack.map Prod.fst, IsSegment settings s := by
    intro s hs
    obtain ⟨p, hp, rfl⟩ := List.mem_map.1 hs
    exact (hstack p hp).1
  have hhead : ∀ s ∈ (stack.map Prod.fst).head?, s.head? ≠ some '!' := by
    intro s hs
    rw [List.head?_map] at hs
    obtain ⟨p, hp, rfl⟩ := Option.map_eq_some_iff.1 hs
    exact hfirst p hp
  have houtline : Outline.ofText? settings raw
      = some ⟨raw, stack.map Prod.fst, writtenBase negative root key modifier, false⟩ :=
    Outline.ofText?_written hsegments hhead (inert_base (isNameChar_front hroot hkey) hmodifier)
      (base_ne_nil (by simp))
  have hread : (stack.map Prod.fst).map read = (stack.map Prod.snd).map some := by
    rw [List.map_map, List.map_map]
    exact List.map_congr_left fun p hp => (hstack p hp).2
  exact ofText?_eq_some.2 ⟨_, stack.map Prod.snd, houtline,
    fun s hs => (hsegments s hs).ne_nil, hread,
    Outline.complete?_written hroot htakes hkey hmodifier hbare hlongest⟩

/-- A negative fraction of the longer of two roots, behind a segment that holds a colon and a
    bracket in quotes. -/
theorem Candidate.ofText?_complete_fraction :
    let read := Variant.ofText? .hover .stock
    let stack : List (Text × Variant) :=
      [("[&[a=':]']]", ⟨[], .arbitrary "&[a=':]']"⟩), ("hover", ⟨[], .named (.static "hover")⟩)]
    (∀ p ∈ stack, IsSegment .stock p.1 ∧ read p.1 = some p.2) ∧
      ofText? .stock .gaps read "[&[a=':]']]:hover:-gap-x-1/2"
        = some { raw := "[&[a=':]']]:hover:-gap-x-1/2", kind := .functional, root := "gap-x",
                 value := some (.named "1" (some "1/2".toList)), modifier := some (.named "2"),
                 variants := stack.map Prod.snd, important := false, negative := true,
                 property := none } := by
  intro read stack
  have hbracketed : Variant.ofText? .hover .stock "[&[a=':]']]"
      = some ⟨[], .arbitrary "&[a=':]']"⟩ := by decide +kernel
  have hhover : Variant.ofText? .hover .stock "hover" = some ⟨[], .named (.static "hover")⟩ := by
    decide +kernel
  have hstack : ∀ p ∈ stack, IsSegment .stock p.1 ∧ read p.1 = some p.2 := by
    intro p hp
    rcases List.mem_cons.1 hp with rfl | hp
    · exact ⟨⟨by decide, by decide, by decide, by decide, by decide⟩, hbracketed⟩
    · rw [List.mem_singleton.1 hp]
      exact ⟨⟨by decide, by decide, by decide, by decide, by decide⟩, hhover⟩
  have hlongest : ∀ longer rest, "gap-x".toList ++ '-' :: "1".toList = longer ++ '-' :: rest →
      "gap-x".toList.length < longer.length → UtilityTable.gaps.takesValue longer = false :=
    fun longer _ _ hlt => Bool.eq_false_iff.2 fun h =>
      absurd (UtilityTable.length_le_of_takesValue_gaps h) (Nat.not_le_of_lt hlt)
  refine ⟨hstack, ?_⟩
  exact @ofText?_complete .stock .gaps read stack "gap-x" "1" (some "2".toList) true hstack
    (by decide) ⟨rfl, rfl⟩ rfl rfl (by decide) rfl hlongest

end Class

end UtilityCss
