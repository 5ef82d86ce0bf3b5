import UtilityCss.Proofs.Candidate.Reading

/-!
# What is read was spelled

A class that is read has no blanks, is balanced, and spells the candidate that comes out of it
(`Candidate.ofText?_spelledBy`): every character of it belongs to a mark, a segment, a sign, a front
or an ending, and none of them is left over or made up.

* `Outline.ofText?_sound`: the pieces of a class, with the one mark put back at its place, are
  the class;
* `splitModifier?_sound`, `Outline.property?_sound`, `Outline.utility?_sound`: the base is its
  front and its ending, and these spell what comes out;
* `Outline.complete?_sound`: the same with the sign.
-/

namespace UtilityCss

variable {settings : Settings} {table : UtilityTable} {variants : List Variant} {c : Candidate}

/-! ## Bases -/

theorem splitModifier?_sound {base front : Text} {modifier : Option Modifier}
    (h : splitModifier? base = some (front, modifier)) :
    ∃ ending, base = front ++ ending ∧ EndingSpelling modifier ending := by
  have hj := Text.join_segments base '/'
  rcases splitModifier?_eq_some.1 h with ⟨hs, rfl⟩ | ⟨text, m, hs, _, _, hm, rfl⟩
  · rw [hs, Text.join_singleton] at hj
    exact ⟨[], by rw [List.append_nil, hj], .none⟩
  · rw [hs, Text.join_cons_cons, Text.join_singleton, List.append_assoc] at hj
    exact ⟨'/' :: text, hj.symm, .slashed hm⟩

theorem Outline.utility?_sound {o : Outline} {negative : Bool} {name : Text}
    {modifier : Option Modifier}
    (h : o.utility? table variants negative name modifier = some c) :
    FrontSpelling table c name ∧ c.negative = negative ∧ c.modifier = modifier ∧
      c.raw = o.raw ∧ c.variants = variants ∧ c.important = o.important := by
  rcases utility?_eq_some.1 h with ⟨hb, rfl⟩ | ⟨hb, root, text, value, hroot, hv, rfl⟩
  · exact ⟨.static rfl rfl rfl hb, rfl, rfl, rfl, rfl, rfl⟩
  · exact ⟨.functional rfl rfl rfl hb hroot (hv.withFraction modifier), rfl, rfl, rfl, rfl, rfl⟩

theorem Outline.property?_sound {o : Outline} (h : o.property? variants = some c) :
    (∃ front ending, o.base = front ++ ending ∧ FrontSpelling table c front ∧
        EndingSpelling c.modifier ending) ∧
      c.negative = false ∧ c.raw = o.raw ∧ c.variants = variants ∧ c.important = o.important := by
  unfold property? at h
  split at h
  · cases h
  · next body modifier hs =>
    obtain ⟨ending, hbase, hending⟩ := splitModifier?_sound hs
    split at h
    · next hb =>
      simp only [Bool.and_eq_true, decide_eq_true_eq] at hb
      obtain ⟨content, rfl⟩ := Bracket.exists_eq_enclose (b := .square) hb.1 hb.2
      rw [Bracket.inner_enclose] at h
      split at h
      · next property first more hp =>
        -- The content is the property, a colon, and the rest with its colons.
        have hcontent := Text.join_segments content ':'
        rw [hp, Text.join_cons_cons, List.append_assoc] at hcontent
        obtain ⟨hproperty, h⟩ := Option.ite_none_right_eq_some.1 h
        obtain ⟨value, hv, rfl⟩ := Option.map_eq_some_iff.1 h
        refine ⟨⟨_, ending, hbase, ?_, hending⟩, rfl, rfl, rfl, rfl⟩
        rw [← hcontent]
        exact .arbitrary rfl rfl rfl rfl rfl hproperty hv
      · cases h
    · cases h

/-- A base spells the candidate that it is completed to. -/
theorem Outline.complete?_sound {o : Outline} (h : o.complete? table variants = some c) :
    BaseSpelling table c o.base ∧
      c.raw = o.raw ∧ c.variants = variants ∧ c.important = o.important := by
  unfold complete? at h
  split at h
  · next hb =>
    -- The bracket that the base begins with is no sign.
    obtain ⟨⟨front, ending, hbase, hfront, hending⟩, hn, hc⟩ :=
      @property?_sound table variants c o h
    refine ⟨⟨⟨front, ending, ?_, hfront, hending⟩, ?_⟩, hc⟩
    · rw [hn, hbase]
      rfl
    · simp [hn, hb]
  · next hb =>
    dsimp only at h
    obtain ⟨_, h⟩ := Option.ite_none_left_eq_some.1 h
    obtain ⟨⟨name, modifier⟩, hs, h⟩ := Option.bind_eq_some_iff.1 h
    obtain ⟨ending, hunsigned, hending⟩ := splitModifier?_sound hs
    obtain ⟨hfront, hn, rfl, hc⟩ := utility?_sound h
    refine ⟨⟨⟨name, ending, ?_, hfront, hending⟩, by rw [hn, decide_eq_true_eq]⟩, hc⟩
    rw [hn, List.append_assoc, ← hunsigned]
    -- The sign is taken off exactly if there is one, so that it can be put back.
    by_cases hsign : o.base.head? = some '-'
    · obtain ⟨rest, hrest⟩ := List.head?_eq_some_iff.1 hsign
      simp [hrest, signText]
    · simp [hsign, signText]

/-! ## Marks -/

/-- The pieces of a class, with the one mark at its place, are the class. -/
theorem Outline.ofText?_sound {raw : Text} {o : Outline} (h : ofText? settings raw = some o) :
    raw.hasBlank = false ∧ raw.isBalanced settings.maxOpenGroups = true ∧ o.raw = raw ∧
      ∃ place, raw = markedClass o.segments o.base place ∧ o.important = place.isSome ∧
        (place ≠ some .front → raw.head? ≠ some '!') ∧
        (place ≠ some .inside → o.base.head? ≠ some '!') ∧
        (place ≠ some .back → o.base.getLast? ≠ some '!') := by
  obtain ⟨hblank, hbalanced, rfl, hne, place, hcut, himportant⟩ := ofText?_eq_some.1 h
  refine ⟨hblank, hbalanced, rfl, place, ?_, himportant, ?_⟩
  · cases hcut with
    | unmarked _ hparts => rw [markedClass, ← hparts, Text.join_segments]
    | front hraw hparts => rw [markedClass, ← hparts, Text.join_segments, hraw]
    | inside _ hparts => rw [markedClass, ← hparts, Text.join_segments]
    | back _ hparts => rw [markedClass, ← hparts, Text.join_segments]
  · cases hcut with
    | unmarked hraw _ hhead hlast => exact ⟨fun _ => hraw, fun _ => hhead, fun _ => hlast⟩
    | front _ _ hhead hlast => exact ⟨fun h => absurd rfl h, fun _ => hhead, fun _ => hlast⟩
    | inside hraw _ hlast => exact ⟨fun _ => hraw, fun h => absurd rfl h, fun _ => hlast⟩
    | back hraw _ hhead => exact ⟨fun _ => hraw, fun _ => hhead, fun h => absurd rfl h⟩

/-! ## Classes -/

/-- A candidate keeps the class that it was read from. -/
theorem Candidate.raw_of_ofText? {read : Text → Option Variant} {raw : Text}
    (h : ofText? settings table read raw = some c) : c.raw = raw := by
  obtain ⟨o, variants, ho, _, _, hc⟩ := ofText?_eq_some.1 h
  obtain ⟨_, hraw, _⟩ := Outline.complete?_sound hc
  exact hraw.trans (Outline.ofText?_sound ho).2.2.1

/-- A class that is read has no blanks, is balanced, and spells what it is read as. -/
theorem Candidate.ofText?_spelledBy {read : Text → Option Variant} {raw : Text}
    (h : ofText? settings table read raw = some c) :
    c.raw = raw ∧ raw.hasBlank = false ∧ raw.isBalanced settings.maxOpenGroups = true ∧
      ∃ segments base place, c.SpelledBy table read segments base place := by
  obtain ⟨o, variants, ho, hne, hv, hc⟩ := ofText?_eq_some.1 h
  obtain ⟨hblank, hbalanced, hraw, place, hclass, hmark, hfront, hinside, hback⟩ :=
    Outline.ofText?_sound ho
  obtain ⟨hbase, hcraw, rfl, himportant⟩ := Outline.complete?_sound hc
  have hcraw : c.raw = raw := hcraw.trans hraw
  refine ⟨hcraw, hblank, hbalanced, o.segments, o.base, place, ?_⟩
  exact ⟨hcraw.trans hclass, himportant.trans hmark, fun hp => hcraw ▸ hfront hp, hinside, hback,
    hne, hv, hbase⟩

/-- A class with a variant, a mark, a sign, the longer of two names, a data type in front of
    its value, and the value of a custom property as its modifier. -/
theorem Candidate.ofText?_spelledBy_of_all_parts :
    let read := Variant.ofText? .hover .stock
    let raw : Text := "hover:!-gap-x-[length:1_2]/(--x)"
    let c : Candidate :=
      { raw, kind := .functional, root := "gap-x",
        value := some (.arbitrary "1 2" (some "length".toList)),
        modifier := some (.arbitrary "var(--x)"), variants := [⟨[], .named (.static "hover")⟩],
        important := true, negative := true, property := none }
    ofText? .stock .gaps read raw = some c ∧
      c.raw = raw ∧ raw.hasBlank = false ∧
      raw.isBalanced Settings.stock.maxOpenGroups = true ∧
      ∃ segments base place, c.SpelledBy .gaps read segments base place := by
  refine (fun h => ⟨h, ofText?_spelledBy h⟩) ?_
  decide +kernel

end UtilityCss
