import UtilityCss.Proofs.Bracket.Segments
import UtilityCss.Proofs.Candidate.Soundness
import UtilityCss.Variant.Stock

/-!
# The limits of the settings

The settings limit how many groups may stand open in a class, and how many compound roots a
variant may have. The limits only refuse: what is read within smaller limits is read the same
within larger ones, and what is read within larger ones is read within smaller ones exactly if it
keeps to them.

* `Variant.chainOf?_iff`: a chain is read in so many steps exactly if it is read in more of them,
  and has fewer roots;
* `Variant.ofText?_iff`, `Outline.ofText?_iff`, `Candidate.ofText?_iff`: the same for segments, for
  the pieces of a class, and for classes;
* `Outline.isBalanced_pieces`: the groups of each segment are counted once more, which refuses no
  class;
* `Candidate.ofText?_within`: all of it together.
-/

namespace UtilityCss

/-! ## Variants -/

namespace Variant

variable {table : VariantTable} {settings settings' : Settings} {v : Variant} {s : Text}

/-- A chain that is read in so many steps has fewer roots, as the leaf takes a step, too. More
    steps change nothing. -/
theorem chainOf?_iff {steps steps' : Nat} (h : steps ≤ steps') {outermost : Bool} :
    chainOf? table steps outermost s = some v ↔
      chainOf? table steps' outermost s = some v ∧ v.outers.length < steps := by
  induction steps generalizing steps' outermost s v with
  | zero => simp [chainOf?]
  | succ steps ih =>
    obtain ⟨more, rfl⟩ := Nat.exists_eq_add_of_lt h
    rw [chainOf?, chainOf?]
    split
    · simp
    · next leaf _ =>
      rw [Option.some_inj]
      refine ⟨?_, And.left⟩
      rintro rfl
      exact ⟨rfl, Nat.zero_lt_succ _⟩
    · next outer rest _ =>
      simp only [Option.map_eq_some_iff, ih (Nat.le_add_right steps more)]
      constructor
      · rintro ⟨inner, ⟨hinner, hlt⟩, rfl⟩
        exact ⟨⟨inner, hinner, rfl⟩, Nat.succ_lt_succ hlt⟩
      · rintro ⟨⟨inner, hinner, rfl⟩, hlt⟩
        exact ⟨inner, ⟨hinner, Nat.lt_of_succ_lt_succ hlt⟩, rfl⟩

/-- A segment is read within smaller limits exactly if it is read within larger ones and keeps to
    the smaller ones. -/
theorem ofText?_iff (hgroups : settings.maxOpenGroups ≤ settings'.maxOpenGroups)
    (hroots : settings.maxCompoundRoots ≤ settings'.maxCompoundRoots) :
    ofText? table settings s = some v ↔
      ofText? table settings' s = some v ∧ s.isBalanced settings.maxOpenGroups = true ∧
        (v.outers.length : Int) ≤ settings.maxCompoundRoots := by
  have hsteps : (settings.maxCompoundRoots + 1).toNat ≤ (settings'.maxCompoundRoots + 1).toNat := by
    omega
  have hlt : v.outers.length < (settings.maxCompoundRoots + 1).toNat ↔
      (v.outers.length : Int) ≤ settings.maxCompoundRoots := by omega
  simp only [ofText?, Option.ite_none_left_eq_some, Bool.or_eq_true, Bool.not_eq_true', not_or,
    Bool.not_eq_false, chainOf?_iff hsteps, hlt]
  constructor
  · rintro ⟨⟨hne, hb⟩, hv, hlength⟩
    exact ⟨⟨⟨hne, Text.isBalanced_mono hgroups hb⟩, hv⟩, hb, hlength⟩
  · rintro ⟨⟨⟨hne, _⟩, hv⟩, hb, hlength⟩
    exact ⟨⟨hne, hb⟩, hv, hlength⟩

end Variant

/-! ## Pieces -/

namespace Outline

variable {settings settings' : Settings} {raw : Text} {o : Outline}

/-- The pieces of a class depend on the limit only in that the class is balanced within it. -/
theorem ofText?_iff (h : settings.maxOpenGroups ≤ settings'.maxOpenGroups) :
    ofText? settings raw = some o ↔
      ofText? settings' raw = some o ∧ raw.isBalanced settings.maxOpenGroups = true := by
  rw [ofText?_eq_some, ofText?_eq_some]
  constructor
  · rintro ⟨hblank, hbalanced, hcut⟩
    exact ⟨⟨hblank, Text.isBalanced_mono h hbalanced, hcut⟩, hbalanced⟩
  · rintro ⟨⟨hblank, _, hcut⟩, hbalanced⟩
    exact ⟨hblank, hbalanced, hcut⟩

/-- The segments and the base of a balanced class are balanced. -/
theorem isBalanced_pieces (h : ofText? settings raw = some o) :
    (∀ s ∈ o.segments, s.isBalanced settings.maxOpenGroups = true) ∧
      o.base.isBalanced settings.maxOpenGroups = true := by
  obtain ⟨_, hbalanced, rfl, _, place, hcut, _⟩ := ofText?_eq_some.1 h
  have hpieces {whole last : Text} (hwhole : whole.isBalanced settings.maxOpenGroups = true)
      (hparts : whole.segments ':' = o.segments ++ [last]) :
      (∀ s ∈ o.segments, s.isBalanced settings.maxOpenGroups = true) ∧
        last.isBalanced settings.maxOpenGroups = true := by
    have hpart {s : Text} (hs : s ∈ o.segments ++ [last]) :=
      Text.isBalanced_of_mem_segments hwhole (hparts ▸ hs)
    exact ⟨fun s hs => hpart (List.mem_append_left [last] hs), hpart List.mem_concat_self⟩
  -- The mark has no meaning for the balance, at whichever place it stands.
  cases hcut with
  | unmarked _ hparts => exact hpieces hbalanced hparts
  | front hraw hparts =>
    rw [hraw, Text.isBalanced_cons (by decide)] at hbalanced
    exact hpieces hbalanced hparts
  | inside _ hparts =>
    have hinside := hpieces hbalanced hparts
    rwa [Text.isBalanced_cons (by decide)] at hinside
  | back _ hparts =>
    have hback := hpieces hbalanced hparts
    rwa [Text.isBalanced_concat (by decide)] at hback

theorem isBalanced_of_mem (h : ofText? settings raw = some o) {s : Text} (hs : s ∈ o.segments) :
    s.isBalanced settings.maxOpenGroups = true :=
  (isBalanced_pieces h).1 s hs

end Outline

/-! ## Classes -/

/-- A table with one fixed variant and one compound root. -/
def VariantTable.negatedHover : VariantTable :=
  ⟨[.relation "not" .negation, .selector "hover" "&:hover" true], true⟩

/-- Where one way to read gives the variants of all segments, so does every way that reads each of
    them alike. -/
theorem map_eq_map_some {read read' : Text → Option Variant} {segments : List Text}
    {variants : List Variant} (h : segments.map read = variants.map some)
    (hread : ∀ s v, s ∈ segments → v ∈ variants → read s = some v → read' s = some v) :
    segments.map read' = variants.map some := by
  rw [← h]
  refine List.map_congr_left fun s hs => ?_
  have hmem : read s ∈ variants.map some := h ▸ List.mem_map_of_mem hs
  obtain ⟨v, hv, heq⟩ := List.mem_map.1 hmem
  rw [← heq, hread s v hs hv heq.symm]

namespace Candidate

variable {variants : VariantTable} {table : UtilityTable} {settings settings' : Settings}

/-- A class is read within smaller limits exactly if it is read within larger ones and keeps to
    the smaller ones. -/
theorem ofText?_iff (hgroups : settings.maxOpenGroups ≤ settings'.maxOpenGroups)
    (hroots : settings.maxCompoundRoots ≤ settings'.maxCompoundRoots) {raw : Text}
    {c : Candidate} :
    ofText? settings table (Variant.ofText? variants settings) raw = some c ↔
      ofText? settings' table (Variant.ofText? variants settings') raw = some c ∧
        raw.isBalanced settings.maxOpenGroups = true ∧
        ∀ v ∈ c.variants, (v.outers.length : Int) ≤ settings.maxCompoundRoots := by
  have hv (s : Text) (v : Variant) :=
    @Variant.ofText?_iff variants settings settings' v s hgroups hroots
  constructor
  · intro h
    obtain ⟨o, vs, ho, hne, hread, hc⟩ := ofText?_eq_some.1 h
    obtain ⟨_, _, rfl, _⟩ := Outline.complete?_sound hc
    obtain ⟨ho', hbalanced⟩ := (Outline.ofText?_iff hgroups).1 ho
    refine ⟨ofText?_eq_some.2 ⟨o, _, ho', hne, ?_, hc⟩, hbalanced, fun v hmem => ?_⟩
    · exact map_eq_map_some hread fun s v _ _ hs => ((hv s v).1 hs).1
    · obtain ⟨s, _, hs⟩ := List.mem_map.1 (hread ▸ List.mem_map_of_mem (f := some) hmem)
      exact ((hv s v).1 hs).2.2
  · rintro ⟨h, hbalanced, hlength⟩
    obtain ⟨o, vs, ho', hne, hread, hc⟩ := ofText?_eq_some.1 h
    obtain ⟨_, _, rfl, _⟩ := Outline.complete?_sound hc
    have ho := (Outline.ofText?_iff hgroups).2 ⟨ho', hbalanced⟩
    refine ofText?_eq_some.2 ⟨o, _, ho, hne, ?_, hc⟩
    -- The segments are balanced because the class is, and their variants keep to the limit.
    exact map_eq_map_some hread fun s v hsegment hmem hs =>
      (hv s v).2 ⟨hs, Outline.isBalanced_of_mem ho hsegment, hlength v hmem⟩

/-- Limits only filter. What is read within the smaller limits is read within the larger ones; and
    what is read within the larger ones is read within the smaller ones exactly if its groups and
    its compound roots keep to them. The segments of a class that is balanced keep to the limit on
    groups by themselves. -/
theorem ofText?_within (hgroups : settings.maxOpenGroups ≤ settings'.maxOpenGroups)
    (hroots : settings.maxCompoundRoots ≤ settings'.maxCompoundRoots) (raw : Text) :
    let read (settings : Settings) :=
      ofText? settings table (Variant.ofText? variants settings) raw
    (∀ c, read settings = some c → read settings' = some c) ∧
      (∀ c, read settings' = some c →
        (read settings = some c ↔
          raw.isBalanced settings.maxOpenGroups = true ∧
            ∀ v ∈ c.variants, (v.outers.length : Int) ≤ settings.maxCompoundRoots)) ∧
      ∀ o, Outline.ofText? settings raw = some o →
        ∀ s ∈ o.segments, s.isBalanced settings.maxOpenGroups = true := by
  intro read
  refine ⟨fun c h => ?_, fun c h => ?_, fun o ho s hs => Outline.isBalanced_of_mem ho hs⟩
  · exact ((ofText?_iff hgroups hroots).1 h).1
  · exact (ofText?_iff hgroups hroots).trans (and_iff_right h)

/-- Two compound roots are read within a limit of two, and not within a limit of one. -/
theorem ofText?_within_of_two_roots :
    let read (settings : Settings) :=
      ofText? settings .gaps (Variant.ofText? .negatedHover settings) "not-not-hover:gap-x-1"
    let c : Candidate :=
      { raw := "not-not-hover:gap-x-1", kind := .functional, root := "gap-x",
        value := some (.named "1" none), modifier := none,
        variants := [⟨[.static "not", .static "not"], .named (.static "hover")⟩],
        important := false, negative := false, property := none }
    read .stock = some c ∧ read ⟨0, 2, "oklab"⟩ = some c ∧ read ⟨0, 1, "oklab"⟩ ≠ some c := by
  intro read c
  have h : read .stock = some c := by decide +kernel
  refine ⟨h, ?_, fun hread => ?_⟩
  · exact ((@ofText?_within .negatedHover .gaps ⟨0, 2, "oklab"⟩ .stock (by decide) (by decide)
      "not-not-hover:gap-x-1").2.1 c h).2 (by decide)
  · have hkept := ((@ofText?_within .negatedHover .gaps ⟨0, 1, "oklab"⟩ .stock (by decide)
      (by decide) "not-not-hover:gap-x-1").2.1 c h).1 hread
    exact absurd hkept (by decide)

end Candidate

end UtilityCss
