import UtilityCss.Text.Basic

/-!
# Ordered maps

A map from texts to values that remembers in which order its keys came. A key
that is already there keeps its place when its value changes, and a new key goes
last. No key comes twice, which is part of the type.

* `OrderedMap.insert`, `OrderedMap.erase`, `OrderedMap.ofList`: building a map;
* `keys_insert`, `get?_insert`: what an insertion does to the keys, and to the value
  of each key;
* `mem_of_mem_entries_ofList`: a map that was built from pairs holds nothing else.
-/

namespace UtilityCss

/-- A map with its keys in the order of their first insertion. -/
structure OrderedMap (α : Type) where
  entries : List (Text × α)
  nodup : (entries.map Prod.fst).Nodup

namespace OrderedMap

variable {α : Type}

/-- The map without keys. -/
def empty : OrderedMap α := ⟨[], List.nodup_nil⟩

instance : Inhabited (OrderedMap α) := ⟨empty⟩

/-- The keys, in order. -/
def keys (m : OrderedMap α) : List Text :=
  m.entries.map Prod.fst

/-- The values, in the order of their keys. -/
def values (m : OrderedMap α) : List α :=
  m.entries.map Prod.snd

/-- The number of keys. -/
def size (m : OrderedMap α) : Nat :=
  m.entries.length

/-- The value of a key. -/
def get? (m : OrderedMap α) (key : Text) : Option α :=
  m.entries.lookup key

/-- Whether a key is there. -/
def contains (m : OrderedMap α) (key : Text) : Bool :=
  (m.get? key).isSome

/-- The entries with the value of `key` replaced. -/
def replaceIn (key : Text) (value : α) (entries : List (Text × α)) : List (Text × α) :=
  entries.map fun e => if e.1 = key then (key, value) else e

theorem map_fst_replaceIn (key : Text) (value : α) (entries : List (Text × α)) :
    (replaceIn key value entries).map Prod.fst = entries.map Prod.fst := by
  simp only [replaceIn, List.map_map]
  refine List.map_congr_left fun e _ => ?_
  by_cases h : e.1 = key <;> simp [h]

/-- The map with one more value, or with the value of a key replaced. -/
def insert (m : OrderedMap α) (key : Text) (value : α) : OrderedMap α :=
  if h : key ∈ m.keys then
    ⟨replaceIn key value m.entries, by rw [map_fst_replaceIn]; exact m.nodup⟩
  else
    ⟨m.entries ++ [(key, value)], by
      rw [List.map_append, List.nodup_append]
      refine ⟨m.nodup, by simp, ?_⟩
      intro a ha b hb hab
      simp only [List.map_cons, List.map_nil, List.mem_singleton] at hb
      subst hb
      exact h (hab ▸ ha)⟩

/-- The map without a key. -/
def erase (m : OrderedMap α) (key : Text) : OrderedMap α :=
  ⟨m.entries.filter (·.1 ≠ key), (List.filter_sublist.map _).nodup m.nodup⟩

/-- The map of a list of pairs, inserted from left to right. -/
def ofList (pairs : List (Text × α)) : OrderedMap α :=
  pairs.foldl (fun m p => m.insert p.1 p.2) empty

/-- Whether two maps give every key the same value, in whatever order. -/
def sameEntries [BEq α] (m₁ m₂ : OrderedMap α) : Bool :=
  m₁.size == m₂.size && m₁.entries.all fun e => m₂.get? e.1 == some e.2

theorem keys_insert (m : OrderedMap α) (key : Text) (value : α) :
    (m.insert key value).keys = if key ∈ m.keys then m.keys else m.keys ++ [key] := by
  unfold insert keys
  split
  · exact map_fst_replaceIn key value m.entries
  · simp

theorem lookup_cons (e : Text × α) (entries : List (Text × α)) (key : Text) :
    (e :: entries).lookup key = if key = e.1 then some e.2 else entries.lookup key := by
  by_cases h : key = e.1
  · rw [if_pos h, h, List.lookup_cons_self]
  · rw [if_neg h, List.lookup_cons, beq_eq_false_iff_ne.2 h]

theorem isSome_lookup_iff (entries : List (Text × α)) (key : Text) :
    (entries.lookup key).isSome ↔ key ∈ entries.map Prod.fst := by
  induction entries with
  | nil => simp
  | cons e entries ih =>
    rw [lookup_cons, List.map_cons, List.mem_cons, ← ih]
    by_cases h : key = e.1
    · simp [h]
    · simp [h]

theorem contains_iff (m : OrderedMap α) (key : Text) : m.contains key ↔ key ∈ m.keys :=
  isSome_lookup_iff m.entries key

theorem lookup_replaceIn (key : Text) (value : α) (entries : List (Text × α)) (k : Text) :
    (replaceIn key value entries).lookup k
      = if k = key then (entries.lookup key).map fun _ => value else entries.lookup k := by
  induction entries with
  | nil => simp [replaceIn]
  | cons e entries ih =>
    have ih : List.lookup k (entries.map fun e => if e.1 = key then (key, value) else e)
        = if k = key then (entries.lookup key).map fun _ => value else entries.lookup k := ih
    rw [replaceIn, List.map_cons, lookup_cons, lookup_cons, lookup_cons, ih]
    by_cases he : e.1 = key
    · by_cases hk : k = key
      · simp [he, hk]
      · simp [he, hk]
    · by_cases hk : k = key
      · simp [he, hk, Ne.symm he]
      · simp [he, hk]

theorem get?_insert (m : OrderedMap α) (key : Text) (value : α) (k : Text) :
    (m.insert key value).get? k = if k = key then some value else m.get? k := by
  unfold insert get? keys
  split
  · next h =>
    obtain ⟨old, hold⟩ := Option.isSome_iff_exists.1 ((isSome_lookup_iff m.entries key).2 h)
    rw [lookup_replaceIn, hold, Option.map_some]
  · next h =>
    have hnone : m.entries.lookup key = none := by
      rw [← Option.not_isSome_iff_eq_none, isSome_lookup_iff]
      exact h
    rw [List.lookup_append, lookup_cons, List.lookup_nil]
    by_cases hk : k = key
    · simp [hk, hnone]
    · simp [hk]

theorem mem_entries_of_get? {m : OrderedMap α} {key : Text} {value : α}
    (h : m.get? key = some value) : (key, value) ∈ m.entries := by
  obtain ⟨before, after, he, _⟩ := List.lookup_eq_some_iff.1 h
  rw [he]
  exact List.mem_append_right _ List.mem_cons_self

theorem mem_entries_insert {m : OrderedMap α} {key : Text} {value : α} {e : Text × α}
    (h : e ∈ (m.insert key value).entries) : e ∈ m.entries ∨ e = (key, value) := by
  unfold insert at h
  split at h
  · obtain ⟨old, hold, rfl⟩ := List.mem_map.1 h
    split
    · exact .inr rfl
    · exact .inl hold
  · simpa using h

/-- A map of pairs has no other entries. -/
theorem mem_of_mem_entries_ofList {pairs : List (Text × α)} {e : Text × α}
    (h : e ∈ (ofList pairs).entries) : e ∈ pairs := by
  have hfold (m : OrderedMap α) :
      e ∈ (pairs.foldl (fun m p => m.insert p.1 p.2) m).entries → e ∈ m.entries ∨ e ∈ pairs := by
    clear h
    induction pairs generalizing m with
    | nil => exact .inl
    | cons p pairs ih =>
      intro h
      rcases ih (m.insert p.1 p.2) h with h | h
      · rcases mem_entries_insert h with h | h
        · exact .inl h
        · exact .inr (h ▸ List.mem_cons_self)
      · exact .inr (List.mem_cons_of_mem _ h)
  rcases hfold empty h with h | h
  · cases h
  · exact h

end OrderedMap

end UtilityCss
