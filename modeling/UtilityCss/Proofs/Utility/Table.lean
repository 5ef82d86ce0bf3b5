import Mathlib.Data.List.Induction
import Mathlib.Tactic.SplitIfs
import UtilityCss.Utility.Table

/-!
# Places in a table of utilities

An entry that is registered again is in the table twice, and its place is the last one. So one more
entry changes the places of the entries with its mark, and no other.

* `UtilityTable.get_append`, `UtilityTable.order_append`: what one more entry changes;
* `UtilityTable.IsLastPlace`, `UtilityTable.isLastPlace_order`: the place of an entry is where it
  was registered last.
-/

namespace UtilityCss

namespace UtilityTable

variable {t : UtilityTable} {e : UtilityEntry}

theorem get_append (t : UtilityTable) (e : UtilityEntry) (name : Text) :
    get { t with entries := t.entries ++ [e] } name
      = if e.name = name then t.get name ++ [e] else t.get name := by
  rw [get, List.filter_append]
  by_cases h : e.name = name <;> simp [get, h]

/-- One more entry takes the last place, and it is the place of its mark from then on. -/
theorem order_append (t : UtilityTable) (e e' : UtilityEntry) :
    order { t with entries := t.entries ++ [e'] } e
      = if e'.mark = e.mark then t.size else t.order e := by
  rw [order, size, List.length_append, List.reverse_append, List.length_singleton,
    List.reverse_singleton, List.singleton_append, List.findIdx_cons, order, size]
  by_cases h : e'.mark = e.mark
  · simp [h]
  · simp only [h, decide_false, cond_false, if_false]
    omega

/-- The place at which the entry with a mark was registered last. -/
def IsLastPlace (t : UtilityTable) (mark place : Nat) : Prop :=
  ∃ earlier last later, t.entries = earlier ++ last :: later ∧ earlier.length = place ∧
    last.mark = mark ∧ ∀ e ∈ later, e.mark ≠ mark

theorem IsLastPlace.lt_size {mark place : Nat} (h : t.IsLastPlace mark place) :
    place < t.size := by
  obtain ⟨earlier, last, later, hentries, rfl, _⟩ := h
  rw [size, hentries, List.length_append, List.length_cons]
  omega

theorem isLastPlace_order (t : UtilityTable) {e : UtilityEntry} (he : e ∈ t.entries) :
    t.IsLastPlace e.mark (t.order e) := by
  obtain ⟨entries, frozen⟩ := t
  induction entries using List.reverseRecOn with
  | nil => cases he
  | append_singleton entries e' ih =>
    rw [order_append ⟨entries, frozen⟩]
    split_ifs with hmark
    · exact ⟨entries, e', [], rfl, rfl, hmark, nofun⟩
    · have hmem : e ∈ entries := by
        rcases List.mem_append.1 he with he | he
        · exact he
        · rw [List.mem_singleton.1 he] at hmark
          exact absurd rfl hmark
      obtain ⟨earlier, last, later, hentries, hplace, hlast, hlater⟩ := ih hmem
      refine ⟨earlier, last, later ++ [e'], ?_, hplace, hlast, ?_⟩
      · rw [← List.cons_append, ← List.append_assoc, ← hentries]
      · rintro x hx
        rcases List.mem_append.1 hx with hx | hx
        · exact hlater x hx
        · rwa [List.mem_singleton.1 hx]

/-- An entry of a table has a place in it, at which the same entry stands. -/
theorem exists_getElem?_order (he : e ∈ t.entries) :
    ∃ e', t.entries[t.order e]? = some e' ∧ e'.mark = e.mark := by
  obtain ⟨earlier, last, later, hentries, hplace, hlast, _⟩ := t.isLastPlace_order he
  refine ⟨last, ?_, hlast⟩
  rw [hentries, ← hplace, List.getElem?_append_right (Nat.le_refl _), Nat.sub_self,
    List.getElem?_cons_zero]

end UtilityTable

end UtilityCss
