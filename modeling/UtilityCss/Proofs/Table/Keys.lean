import UtilityCss.OrderedMap

/-!
# Keys, each once

A map that remembers the order of its keys has each key once, at the place of its first insertion.
So its keys are a row of texts without the repetitions.

* `eraseDups_concat`: one more element, which may be a repetition;
* `OrderedMap.keys_insert_of_eraseDups`, `OrderedMap.entries_insert_of_not_mem`: the keys after an
  insertion, and the entries after that of a new key;
* `OrderedMap.get?_of_mem_entries`, `OrderedMap.values_eq_map`: the values, key by key.
-/

namespace UtilityCss

theorem eraseDups_concat {α : Type} [BEq α] [LawfulBEq α] (s : List α) (a : α) :
    (s ++ [a]).eraseDups = if a ∈ s then s.eraseDups else s.eraseDups ++ [a] := by
  rw [List.eraseDups_append]
  by_cases h : a ∈ s <;> simp [List.removeAll, List.eraseDups_cons, h]

namespace OrderedMap

variable {α : Type} {m : OrderedMap α}

theorem entries_insert_of_not_mem {key : Text} {value : α} (h : key ∉ m.keys) :
    (m.insert key value).entries = m.entries ++ [(key, value)] := by
  rw [insert, dif_neg h]

theorem keys_insert_of_eraseDups {keys : List Text} (h : m.keys = keys.eraseDups) (key : Text)
    (value : α) : (m.insert key value).keys = (keys ++ [key]).eraseDups := by
  rw [keys_insert, eraseDups_concat, h]
  simp only [List.mem_eraseDups]

theorem mem_keys_of_get? {key : Text} {value : α} (h : m.get? key = some value) : key ∈ m.keys :=
  (contains_iff m key).1 (by rw [contains, h, Option.isSome_some])

theorem get?_of_mem_entries {e : Text × α} (h : e ∈ m.entries) : m.get? e.1 = some e.2 := by
  obtain ⟨before, after, hentries⟩ := List.append_of_mem h
  have hnodup := m.nodup
  rw [hentries, List.map_append, List.map_cons, List.nodup_append] at hnodup
  refine List.lookup_eq_some_iff.2 ⟨before, after, hentries, fun p hp => bne_iff_ne.2 ?_⟩
  -- The key comes only once, so not before this entry.
  exact (hnodup.2.2 p.1 (List.mem_map_of_mem hp) e.1 List.mem_cons_self).symm

theorem values_eq_map {f : Text → α} (h : ∀ key value, m.get? key = some value → value = f key) :
    m.values = m.keys.map f := by
  rw [values, keys, List.map_map]
  exact List.map_congr_left fun e he => h e.1 e.2 (get?_of_mem_entries he)

end OrderedMap

end UtilityCss
