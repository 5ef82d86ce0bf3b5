import UtilityCss.Proofs.Compilation.Lookup
import UtilityCss.Proofs.Variant.Stock
import UtilityCss.Variant.Resolution

/-!
# Breakpoints among the stock variants

Each breakpoint of a theme is a variant of its own, between `max` and `min`. The names of the other
stock variants are fixed, those before the breakpoints and those behind them, and they differ from
each other, as do the breakpoints. So the table is built unless a breakpoint bears one of these
names, and then the order of the breakpoints is that of the theme.

* `VariantTable.nodup_stockNames_iff`: when no stock name comes twice;
* `VariantTable.IsStockOf`: what the table of a theme has;
* `VariantTable.stock_outcome`: when the table is built, and what it has then.
-/

namespace UtilityCss

namespace Theme

variable {t : Theme} {nameSpace key : Text}

theorem nodup_keysUnder (t : Theme) (nameSpace : Text) : (t.keysUnder nameSpace).Nodup := by
  refine t.values.nodup.filterMap fun name name' key hname hname' => ?_
  rw [(keyUnder?_eq_some.1 hname).1, (keyUnder?_eq_some.1 hname').1]

/-- A key under a namespace is that of a variable with a value, which is looked up. -/
theorem exists_value_of_mem_keysUnder (h : key ∈ t.keysUnder nameSpace) :
    ∃ value, t.get? (variableName nameSpace key) = some value ∧
      t.valueFor? key [nameSpace] = some value := by
  have hcontains := (mem_keysUnder.1 h).1
  obtain ⟨value, hvalue⟩ := Option.isSome_iff_exists.1 hcontains
  refine ⟨value, hvalue, ?_⟩
  have hfind : [nameSpace].find? (fun nameSpace => t.contains (variableName nameSpace key))
      = some nameSpace := List.find?_cons_of_pos hcontains
  rw [valueFor?, UtilityRule.variableFor?_eq, hfind, Option.map_some, Option.bind_some]
  exact hvalue

end Theme

namespace VariantTable

variable {theme : Theme} {table : VariantTable} {breakpoints : List Text}

/-! ## Names -/

/-- The names of the stock variants before `max`. -/
def namesBefore : List Text :=
  stockBefore.map (·.name)

/-- The names of the stock variants behind `min`. -/
def namesAfter : List Text :=
  ["@max", "@", "@min"].map String.toList ++ stockAfter.map (·.name)

theorem stockNames_eq (breakpoints : List Text) : stockNames breakpoints
    = namesBefore ++ "max".toList :: (breakpoints ++ "min".toList :: namesAfter) := by
  simp [stockNames, namesBefore, namesAfter]

theorem perm_stockNames (breakpoints : List Text) :
    (stockNames breakpoints).Perm (breakpoints ++ stockNames []) := by
  have hfront : (namesBefore ++ ["max".toList] ++ breakpoints).Perm
      (breakpoints ++ (namesBefore ++ ["max".toList])) := List.perm_append_comm
  have := hfront.append_right ("min".toList :: namesAfter)
  simpa [stockNames_eq] using this

theorem nodup_stockNames_nil : (stockNames []).Nodup := by
  decide +kernel

/-- No stock name comes twice if no breakpoint bears the name of another stock variant. -/
theorem nodup_stockNames_iff (hnodup : breakpoints.Nodup) :
    (stockNames breakpoints).Nodup ↔ ∀ key ∈ breakpoints, key ∉ stockNames [] := by
  rw [(perm_stockNames breakpoints).nodup_iff, List.nodup_append', List.disjoint_left]
  exact ⟨fun h => h.2.2, fun h => ⟨hnodup, nodup_stockNames_nil, h⟩⟩

/-- A name that comes twice is that of a breakpoint and of another stock variant. -/
theorem mem_of_two_le_count {name : Text} (hnodup : breakpoints.Nodup)
    (h : 2 ≤ (stockNames breakpoints).count name) : name ∈ breakpoints ∧ name ∈ stockNames [] := by
  rw [(perm_stockNames breakpoints).count_eq, List.count_append] at h
  have hkeys := List.nodup_iff_count_le_one.1 hnodup name
  have hothers := List.nodup_iff_count_le_one.1 nodup_stockNames_nil name
  rw [← List.count_pos_iff, ← List.count_pos_iff]
  omega

theorem ne_nil_of_mem_stockNames {name : Text} (hbreakpoints : ∀ key ∈ breakpoints, key ≠ [])
    (h : name ∈ stockNames breakpoints) : name ≠ [] := by
  have hfixed : ∀ name ∈ stockNames [], name ≠ [] := by decide +kernel
  rcases List.mem_append.1 ((perm_stockNames breakpoints).mem_iff.1 h) with h | h
  · exact hbreakpoints name h
  · exact hfixed name h

/-! ### Places -/

theorem getElem?_stockNames_max (breakpoints : List Text) :
    (stockNames breakpoints)[namesBefore.length]? = some "max".toList := by
  rw [stockNames_eq, List.getElem?_append_right (Nat.le_refl _), Nat.sub_self,
    List.getElem?_cons_zero]

theorem getElem?_stockNames_behind (breakpoints : List Text) (place : Nat) :
    (stockNames breakpoints)[namesBefore.length + 1 + place]?
      = (breakpoints ++ "min".toList :: namesAfter)[place]? := by
  rw [stockNames_eq, Nat.add_assoc, List.getElem?_append_right (Nat.le_add_right _ _),
    Nat.add_sub_cancel_left, Nat.add_comm, List.getElem?_cons_succ]

/-! ## The table -/

/-- The table has all stock variants of a theme, each once, with the breakpoints in the order of the
    theme right behind `max` and right before `min`. -/
structure IsStockOf (theme : Theme) (table : VariantTable) : Prop where
  names : table.definitions.map (·.name) = stockNames (theme.keysUnder "--breakpoint")
  nodup : (table.definitions.map (·.name)).Nodup
  frozen : table.frozen = true
  order_breakpoint {place : Nat} {key : Text} :
    (theme.keysUnder "--breakpoint")[place]? = some key →
      table.order key = table.order "max" + 1 + place
  order_min : table.order "min" = table.order "max" + 1 + (theme.keysUnder "--breakpoint").length
  /-- A breakpoint asks for its size. -/
  wrap? : ∀ key ∈ theme.keysUnder "--breakpoint", ∃ size,
    theme.get? (Theme.variableName "--breakpoint" key) = some size ∧
      (Variant.ofLeaf (.named (.static key))).wrap? table
        = some (.atRule "@media" (Text.join [] ["(width >= ", size, ")"]))

theorem atRule_mem_stockDefinitions {key : Text} (h : key ∈ theme.keysUnder "--breakpoint") :
    VariantDefinition.atRule key "@media"
        (Text.join [] ["(width >= ", (theme.valueFor? key ["--breakpoint"]).getD [], ")"])
      ∈ stockDefinitions theme := by
  have hbreakpoint : VariantDefinition.atRule key "@media"
        (Text.join [] ["(width >= ", (theme.valueFor? key ["--breakpoint"]).getD [], ")"])
      ∈ stockBreakpoints theme := by
    rw [stockBreakpoints]
    exact List.mem_append_left _ (List.mem_append_right _ (List.mem_map_of_mem h))
  rw [stockDefinitions, List.append_assoc, List.append_assoc]
  exact List.mem_append_right _ (List.mem_append_left _ hbreakpoint)

theorem isStockOf_of_stock (h : stock theme = .ok table) : table.IsStockOf theme := by
  have hnodup := nodup_of_build h
  have hbehavior {d : VariantDefinition} := behavior?_of_build (d := d) h
  obtain rfl := build_eq_ok h
  have hnames := map_name_stockDefinitions theme
  have horder {place : Nat} {name : Text}
      (hname : (stockNames (theme.keysUnder "--breakpoint"))[place]? = some name) :
      order ⟨stockDefinitions theme, true⟩ name = place := by
    refine order_of_nodup hnodup ?_
    rwa [hnames]
  have hmax := horder (getElem?_stockNames_max _)
  refine ⟨hnames, hnodup, rfl, fun {place key} hkey => ?_, ?_, fun key hkey => ?_⟩
  · obtain ⟨hlt, _⟩ := List.getElem?_eq_some_iff.1 hkey
    rw [hmax]
    refine horder ?_
    rw [getElem?_stockNames_behind, List.getElem?_append_left hlt, hkey]
  · rw [hmax]
    refine horder ?_
    rw [getElem?_stockNames_behind, List.getElem?_append_right (Nat.le_refl _), Nat.sub_self,
      List.getElem?_cons_zero]
  · obtain ⟨size, hget, hvalue⟩ := Theme.exists_value_of_mem_keysUnder hkey
    have hfixed := hbehavior (atRule_mem_stockDefinitions hkey)
    rw [hvalue, Option.getD_some, VariantDefinition.atRule] at hfixed
    refine ⟨size, hget, ?_⟩
    rw [Variant.wrap?, Variant.ofLeaf, Leaf.wrap?, hfixed]
    rfl

/-- The reason why a stock table is not built is the name of a breakpoint. -/
theorem duplicate_of_stock_eq_error {e : VariantTableError} (h : stock theme = .error e) :
    ∃ name, IsFirstRepeated (stockNames (theme.keysUnder "--breakpoint")) name ∧
      name ∈ theme.keysUnder "--breakpoint" ∧ name ∈ stockNames [] ∧ e = .duplicate name := by
  have hname : ∀ d ∈ stockDefinitions theme, d.name ≠ [] := by
    intro d hd
    have hmem : d.name ∈ (stockDefinitions theme).map (·.name) := List.mem_map_of_mem hd
    rw [map_name_stockDefinitions] at hmem
    exact ne_nil_of_mem_stockNames (fun key hkey => (Theme.mem_keysUnder.1 hkey).2.1) hmem
  obtain ⟨name, hfirst, rfl⟩ := duplicate_of_build_eq_error hname h
  rw [map_name_stockDefinitions] at hfirst
  obtain ⟨hkey, hother⟩ :=
    mem_of_two_le_count (Theme.nodup_keysUnder theme "--breakpoint") hfirst.two_le_count
  exact ⟨name, hfirst, hkey, hother, rfl⟩

/-- *A breakpoint that bears the name of another stock variant, and nothing else, keeps the stock
    table of a theme from being built.* Then the first name that comes again is the reason, and
    otherwise the table has all stock variants, the breakpoints in the order of the theme. -/
theorem stock_outcome (theme : Theme) :
    ((∃ e, stock theme = .error e) ↔
      ∃ key ∈ theme.keysUnder "--breakpoint", key ∈ stockNames []) ∧
    (∀ e, stock theme = .error e →
      ∃ name, IsFirstRepeated (stockNames (theme.keysUnder "--breakpoint")) name ∧
        name ∈ theme.keysUnder "--breakpoint" ∧ name ∈ stockNames [] ∧ e = .duplicate name) ∧
    ∀ table, stock theme = .ok table → table.IsStockOf theme := by
  refine ⟨⟨?_, ?_⟩, fun e => duplicate_of_stock_eq_error, fun table => isStockOf_of_stock⟩
  · rintro ⟨e, he⟩
    obtain ⟨name, _, hkey, hother, _⟩ := duplicate_of_stock_eq_error he
    exact ⟨name, hkey, hother⟩
  · rintro ⟨key, hkey, hother⟩
    rcases h : stock theme with e | table
    · exact ⟨e, rfl⟩
    · obtain ⟨hnames, hnodup⟩ := isStockOf_of_stock h
      rw [hnames, nodup_stockNames_iff (Theme.nodup_keysUnder theme _)] at hnodup
      exact absurd hother (hnodup key hkey)

end VariantTable

end UtilityCss
