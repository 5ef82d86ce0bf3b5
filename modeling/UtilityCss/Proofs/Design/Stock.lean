import UtilityCss.Proofs.Compilation.Fitting
import UtilityCss.Proofs.Variant.Stock

/-!
# The stock design is tame

All texts that the stock design puts into declarations are tame. Those of the tables are looked
through one by one; of the theme, only its pairs are, since the map that is built of them has no
others (`Theme.isTame_stock`). The stock utilities of any tame theme are tame, though one of them
takes its default value from the theme (`Utility.isTame_of_mem_stockUtilities`).

* `Design.stock_eq_ok`: the parts of the stock design;
* `Design.isTame_of_stock`: they are tame.
-/

namespace UtilityCss

theorem Theme.isTame_stock : stock.isTame = true := by
  have hall : stockVariables.all (·.2.isTame) = true := by decide +kernel
  refine List.all_eq_true.2 fun value hvalue => ?_
  obtain ⟨e, he, rfl⟩ := List.mem_map.1 hvalue
  exact List.all_eq_true.1 hall e (OrderedMap.mem_of_mem_entries_ofList he)

namespace Utility

theorem isTame_stockSurface {theme : Theme} (htheme : theme.isTame = true) :
    (stockSurface theme).all isTame = true := by
  have hradius : ((theme.get? "--radius").getD "0.25rem".toList).isTame = true := by
    cases h : theme.get? "--radius" with
    | none => decide
    | some value => exact Theme.isTame_of_get? htheme h
  rw [stockSurface]
  simp only [List.all_cons, List.all_nil, Bool.and_true, Bool.and_eq_true]
  refine ⟨?_, ?_, ?_, ?_, ?_, ?_, ?_, ?_, ?rounded, ?_, ?_, ?_, ?_, ?_, ?_⟩
  case rounded =>
    rw [isTame, Bool.and_eq_true]
    exact ⟨by decide +kernel, hradius⟩
  all_goals decide +kernel

theorem isTame_of_mem_stockUtilities {theme : Theme} (htheme : theme.isTame = true) {u : Utility}
    (hu : u ∈ stockUtilities theme) : u.isTame = true := by
  have hposition : stockPosition.all isTame = true := by decide +kernel
  have hspacing : stockSpacing.all isTame = true := by decide +kernel
  have hlayout : stockLayout.all isTame = true := by decide +kernel
  have hsizing : stockSizing.all isTame = true := by decide +kernel
  have htypography : stockTypography.all isTame = true := by decide +kernel
  have hall : (stockUtilities theme).all isTame = true := by
    simp only [stockUtilities, List.all_append, hposition, hspacing, hlayout, hsizing, htypography,
      isTame_stockSurface htheme, Bool.and_self]
  exact List.all_eq_true.1 hall u hu

end Utility

namespace Design

/-- The parts of the stock design. -/
theorem stock_eq_ok : stock = .ok
    ⟨.stock, .stock .stock, ⟨VariantTable.stockDefinitions .stock, true⟩, .stock, rfl, rfl⟩ := by
  rw [stock, build, VariantTable.stock_eq_ok]
  rfl

theorem isTame_of_stock {d : Design} (h : stock = .ok d) : d.isTame = true := by
  rw [stock_eq_ok] at h
  rw [← Except.ok.inj h]
  have hspace : Settings.stock.mixingSpace.isTame = true := by decide
  rw [isTame, Theme.isTame_stock, hspace, Bool.true_and, Bool.and_true]
  refine List.all_eq_true.2 fun e he => ?_
  obtain ⟨p, hp, rfl⟩ := List.mem_map.1 he
  exact Utility.isTame_of_mem_stockUtilities Theme.isTame_stock (List.fst_mem_of_mem_zipIdx hp)

end Design

end UtilityCss
