import UtilityCss.Proofs.Candidate.Limits

/-!
# The parts of a class

A class is cut at its colons into segments and a base, and each of these is cut again at its
slashes. A cut is undone by joining, it leaves nothing to be cut, and it never opens a group: what
is cut out of a balanced class is balanced, within the same limit.

* `Outline.isBalanced_parts`: the parts between the slashes of the segments and the base are
  balanced;
* `Text.segments_exact`: all of it together, for every text and every separator. Brackets, quotes
  and backslashes are no exception.
-/

namespace UtilityCss

namespace Outline

variable {settings : Settings} {raw : Text} {o : Outline}

/-- The text and the modifier of a variant, and of a utility with or without its sign, are
    balanced. -/
theorem isBalanced_parts (h : ofText? settings raw = some o) {s part : Text}
    (hs : s ∈ o.segments ∨ s = o.base ∨ '-' :: s = o.base) (hpart : part ∈ s.segments '/') :
    part.isBalanced settings.maxOpenGroups = true := by
  obtain ⟨hsegments, hbase⟩ := isBalanced_pieces h
  refine Text.isBalanced_of_mem_segments ?_ hpart
  rcases hs with hs | rfl | hs
  · exact hsegments s hs
  · exact hbase
  · rwa [← hs, Text.isBalanced_cons (by decide)] at hbase

end Outline

namespace Text

/-- *Cutting is undone by joining*: the parts of a text between the separators outside every group
    join to the text, none of them is cut again, and they are as balanced as the text. So in a
    class that is balanced, the segments of the variants and the base are balanced, and so are the
    parts in front of their slashes and behind. -/
theorem segments_exact :
    (∀ (s : Text) (separator : Char),
      join [separator] (s.segments separator) = s ∧
        (∀ part ∈ s.segments separator, part.segments separator = [part]) ∧
        ∀ limit, s.isBalanced limit = true →
          ∀ part ∈ s.segments separator, part.isBalanced limit = true) ∧
    ∀ (settings : Settings) (raw : Text) (o : Outline), Outline.ofText? settings raw = some o →
      (∀ s ∈ o.segments, s.isBalanced settings.maxOpenGroups = true) ∧
        o.base.isBalanced settings.maxOpenGroups = true ∧
        ∀ s, s ∈ o.segments ∨ s = o.base ∨ '-' :: s = o.base →
          ∀ part ∈ s.segments '/', part.isBalanced settings.maxOpenGroups = true := by
  refine ⟨fun s separator => ⟨join_segments s separator, fun part => segments_of_mem,
    fun limit hs part => isBalanced_of_mem_segments hs⟩, fun settings raw o h => ?_⟩
  obtain ⟨hsegments, hbase⟩ := Outline.isBalanced_pieces h
  exact ⟨hsegments, hbase, fun s hs part => Outline.isBalanced_parts h hs⟩

/-- A class with groups and a quote around its separators. -/
theorem segments_exact_of_quoted :
    let raw : Text := "group-[&_a[title=':']]/x:-m-[calc(1px:/2)]/50!"
    let segment : Text := "group-[&_a[title=':']]/x"
    let base : Text := "-m-[calc(1px:/2)]/50"
    raw.isBalanced 2 = true ∧ raw.segments ':' = [segment, base ++ ['!']] ∧
      join [':'] [segment, base ++ ['!']] = raw ∧
      segment.segments ':' = [segment] ∧ segment.isBalanced 2 = true ∧
      Outline.ofText? .stock raw = some ⟨raw, [segment], base, true⟩ ∧
      base.isBalanced Settings.stock.maxOpenGroups = true ∧
      segments "m-[calc(1px:/2)]/50" '/' = (["m-[calc(1px:/2)]", "50"] : List Text) ∧
      isBalanced "m-[calc(1px:/2)]" Settings.stock.maxOpenGroups = true := by
  intro raw segment base
  have hbalanced : raw.isBalanced 2 = true := by decide
  have hsegments : raw.segments ':' = [segment, base ++ ['!']] := by decide
  have houtline : Outline.ofText? .stock raw = some ⟨raw, [segment], base, true⟩ := by decide
  have hparts :
      segments "m-[calc(1px:/2)]/50" '/' = (["m-[calc(1px:/2)]", "50"] : List Text) := by decide
  obtain ⟨hjoin, hwhole, hkept⟩ := segments_exact.1 raw ':'
  obtain ⟨_, hbase, hcut⟩ := segments_exact.2 .stock raw _ houtline
  rw [hsegments] at hjoin hwhole hkept
  exact ⟨hbalanced, hsegments, hjoin, hwhole segment (.head _),
    hkept 2 hbalanced segment (.head _), houtline, hbase, hparts,
    hcut "m-[calc(1px:/2)]/50" (.inr (.inr rfl)) "m-[calc(1px:/2)]" (hparts ▸ .head _)⟩

end Text

end UtilityCss
