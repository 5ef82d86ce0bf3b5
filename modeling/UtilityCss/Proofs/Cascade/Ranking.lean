import UtilityCss.CommandLine.Run
import UtilityCss.Proofs.Candidate.Soundness
import UtilityCss.Proofs.Cascade.Order
import UtilityCss.Proofs.Session.Outcomes
import UtilityCss.Proofs.Session.Transparency

/-!
# Ranks

The rank of a class is its place among the distinct classes with a key, sorted by their keys.
As no two classes have the same key, the sorted list is the same however the classes came, and
ranks compare as keys do (`RankedBy.lt_iff`). What a rank says of two classes therefore does not
depend on the other classes that it was given for.

* `noneLast`: an order in which what has no value comes after all others;
* `ranked_keyedBy`: ranks by key are the numbers from zero on, and compare as the keys;
* `RankedBy.map_fst_mergeSort`: a stable sort by rank puts the classes with a key in the order
  of their keys, and leaves the others behind as they came;
* `Design.order_total`: all of this for the ranks that a session gives.
-/

namespace UtilityCss

/-! ## Lists -/

theorem nodup_eraseDups {α : Type} [BEq α] [LawfulBEq α] : (l : List α) → l.eraseDups.Nodup
  | [] => List.nodup_nil
  | a :: l => by
    rw [List.eraseDups_cons, List.nodup_cons]
    exact ⟨by simp [List.mem_eraseDups], nodup_eraseDups _⟩
termination_by l => l.length
decreasing_by exact Nat.lt_succ_of_le (List.length_filter_le _ _)

/-- In a list without repetition whose members stand in an order, their places compare as they
    do. -/
theorem idxOf?_lt_iff {α : Type} [BEq α] [LawfulBEq α] {R : α → α → Prop}
    (hR : ∀ a b, R a b → ¬ R b a) {l : List α} (h : l.Pairwise R) {a b : α} {i j : Nat}
    (ha : l.idxOf? a = some i) (hb : l.idxOf? b = some j) : i < j ↔ R a b := by
  obtain ⟨hi, rfl, _⟩ := List.idxOf?_eq_some_iff.1 ha
  obtain ⟨hj, rfl, _⟩ := List.idxOf?_eq_some_iff.1 hb
  rw [List.pairwise_iff_getElem] at h
  refine ⟨h i j hi hj, fun hab => ?_⟩
  rcases Nat.lt_trichotomy i j with hlt | rfl | hgt
  · exact hlt
  · exact absurd hab (hR _ _ hab)
  · exact absurd hab (hR _ _ (h j i hj hi hgt))

/-- The order `le` of values, in which what has none comes after all others. -/
def noneLast {α : Type} (le : α → α → Bool) : Option α → Option α → Bool
  | some a, some b => le a b
  | _, none => true
  | none, some _ => false

section NoneLast

variable {α β : Type} {le : β → β → Bool} {f : α → Option β}

theorem noneLast_trans (h : ∀ a b c, le a b = true → le b c = true → le a c = true)
    (x y z : Option β) (hxy : noneLast le x y = true) (hyz : noneLast le y z = true) :
    noneLast le x z = true := by
  cases x <;> cases y <;> cases z <;> simp_all [noneLast]
  exact h _ _ _ hxy hyz

theorem noneLast_total (h : ∀ a b, (le a b || le b a) = true) (x y : Option β) :
    (noneLast le x y || noneLast le y x) = true := by
  cases x <;> cases y <;> simp_all [noneLast]

/-- A list in this order falls into those with a value and those without. -/
theorem eq_filter_append_filter {l : List α}
    (h : l.Pairwise fun a b => noneLast le (f a) (f b) = true) :
    l = l.filter (fun a => (f a).isSome) ++ l.filter (fun a => (f a).isNone) := by
  induction l with
  | nil => rfl
  | cons a l ih =>
    rw [List.pairwise_cons] at h
    cases ha : f a with
    | some v => simpa [ha] using ih h.2
    | none =>
      -- After one without a value come only such.
      have hnone : ∀ b ∈ l, f b = none := fun b hb => by
        have := h.1 b hb
        rw [ha] at this
        cases hb : f b with
        | none => rfl
        | some v => rw [hb] at this; cases this
      have hsome : l.filter (fun a => (f a).isSome) = [] :=
        List.filter_eq_nil_iff.2 fun b hb => by simp [hnone b hb]
      have hall : l.filter (fun a => (f a).isNone) = l :=
        List.filter_eq_self.2 fun b hb => by simp [hnone b hb]
      simp [ha, hsome, hall]

/-- Sorting leaves those without a value behind, as they came. -/
theorem mergeSort_noneLast (htrans : ∀ a b c, le a b = true → le b c = true → le a c = true)
    (htotal : ∀ a b, (le a b || le b a) = true) (l : List α) :
    l.mergeSort (fun a b => noneLast le (f a) (f b))
      = (l.mergeSort fun a b => noneLast le (f a) (f b)).filter (fun a => (f a).isSome)
        ++ l.filter (fun a => (f a).isNone) := by
  have htrans' (a b c : α) := noneLast_trans htrans (f a) (f b) (f c)
  have htotal' (a b : α) := noneLast_total htotal (f a) (f b)
  have hsplit := eq_filter_append_filter (List.pairwise_mergeSort htrans' htotal' l)
  -- Those without a value are a sublist that is in order, and the sort is stable.
  have hnone : (l.filter fun a => (f a).isNone).Pairwise fun a b =>
      noneLast le (f a) (f b) = true := by
    refine List.pairwise_of_forall_mem_list fun a _ b hb => ?_
    rw [List.mem_filter, Option.isNone_iff_eq_none] at hb
    rw [hb.2]
    cases f a <;> rfl
  have hsub := (List.sublist_mergeSort htrans' htotal' hnone List.filter_sublist).filter
    fun a => (f a).isNone
  rw [List.filter_filter] at hsub
  simp only [Bool.and_self] at hsub
  have hlength := ((l.mergeSort_perm fun a b => noneLast le (f a) (f b)).filter
    fun a => (f a).isNone).length_eq
  rw [hsub.eq_of_length hlength.symm]
  exact hsplit

end NoneLast

/-! ## Ranks by key -/

/-- The classes that have a key, each once. -/
def keyedBy (key : Text → Option CascadeKey) (classes : List Text) : List KeyedClass :=
  classes.eraseDups.filterMap fun raw => (key raw).map (raw, ·)

/-- The order of classes by their keys; those without a key come last. -/
def keyLe (key : Text → Option CascadeKey) (a b : Text) : Bool :=
  noneLast CascadeKey.le (key a) (key b)

/-- The order of rows by rank; those without a rank come last. -/
def rankLe (a b : Text × Option Nat) : Bool :=
  noneLast (fun i j => i ≤ j) a.2 b.2

/-- The key of one class is smaller than that of another. -/
def KeyLt (key : Text → Option CascadeKey) (a b : Text) : Prop :=
  ∃ ka kb, key a = some ka ∧ key b = some kb ∧ ka.compare kb = .lt

/-- Some classes with their ranks by key. -/
structure RankedBy (key : Text → Option CascadeKey) (classes : List Text)
    (rows : List (Text × Option Nat)) : Prop where
  /-- The classes stand as they came, and equal ones have equal ranks. -/
  rows_eq : ∃ rank : Text → Option Nat, rows = classes.map fun raw => (raw, rank raw)
  /-- A class has a rank if it has a key. -/
  isSome_iff : ∀ row ∈ rows, row.2.isSome ↔ (key row.1).isSome
  /-- The ranks are the numbers below the count of distinct classes with a key. -/
  mem_iff : ∀ n, (∃ raw, (raw, some n) ∈ rows) ↔
    n < (classes.eraseDups.filter fun raw => (key raw).isSome).length
  /-- Ranks compare as keys. -/
  lt_iff : ∀ a b i j, (a, some i) ∈ rows → (b, some j) ∈ rows → (i < j ↔ KeyLt key a b)

section Ranks

variable {key : Text → Option CascadeKey} {classes : List Text}

theorem map_fst_keyedBy :
    (keyedBy key classes).map Prod.fst = classes.eraseDups.filter fun raw => (key raw).isSome := by
  have h : (fun raw => ((key raw).map (raw, ·)).map Prod.fst)
      = Option.guard fun raw => (key raw).isSome := by
    funext raw
    cases hk : key raw <;> simp [Option.guard, hk]
  rw [keyedBy, List.map_filterMap, h, List.filterMap_eq_filter]

theorem mem_keyedBy {p : KeyedClass} :
    p ∈ keyedBy key classes ↔ p.1 ∈ classes ∧ key p.1 = some p.2 := by
  obtain ⟨raw, k⟩ := p
  rw [keyedBy, List.mem_filterMap]
  constructor
  · rintro ⟨raw', hraw', h⟩
    obtain ⟨k', hk', h⟩ := Option.map_eq_some_iff.1 h
    cases h
    exact ⟨List.mem_eraseDups.1 hraw', hk'⟩
  · rintro ⟨hraw, hk⟩
    exact ⟨raw, List.mem_eraseDups.2 hraw, by rw [hk, Option.map_some]⟩

theorem KeyLt.asymm {a b : Text} (h : KeyLt key a b) : ¬ KeyLt key b a := by
  rintro ⟨kb, ka, hb, ha, hba⟩
  obtain ⟨ka', kb', ha', hb', hab⟩ := h
  rw [ha] at ha'
  rw [hb] at hb'
  cases ha'
  cases hb'
  have hswap : ka.compare kb = (kb.compare ka).swap := Std.OrientedCmp.eq_swap
  rw [hab, hba] at hswap
  cases hswap

theorem keyLe_trans (a b c : Text) (hab : keyLe key a b = true) (hbc : keyLe key b c = true) :
    keyLe key a c = true :=
  @noneLast_trans _ CascadeKey.le (fun _ _ _ => CascadeKey.le_trans) (key a) (key b) (key c) hab hbc

theorem keyLe_total (a b : Text) : (keyLe key a b || keyLe key b a) = true :=
  noneLast_total CascadeKey.le_total (key a) (key b)

/-- Distinct classes with keys stand in one order or the other. -/
theorem keyLe_antisymm (hraw : ∀ raw k, key raw = some k → k.raw = raw) {a b : Text}
    (ha : (key a).isSome) (hb : (key b).isSome) (hab : keyLe key a b = true)
    (hba : keyLe key b a = true) : a = b := by
  obtain ⟨ka, ha⟩ := Option.isSome_iff_exists.1 ha
  obtain ⟨kb, hb⟩ := Option.isSome_iff_exists.1 hb
  simp only [keyLe, ha, hb, noneLast] at hab hba
  rw [← hraw a ka ha, ← hraw b kb hb]
  exact CascadeKey.raw_eq_of_compare_eq (Std.OrientedCmp.isLE_antisymm hab hba)

theorem keyLe_of_not_keyLt {a b : Text} (ha : (key a).isSome) (hb : (key b).isSome)
    (h : ¬ KeyLt key b a) : keyLe key a b = true := by
  obtain ⟨ka, ha⟩ := Option.isSome_iff_exists.1 ha
  obtain ⟨kb, hb⟩ := Option.isSome_iff_exists.1 hb
  simp only [keyLe, ha, hb, noneLast]
  rcases Bool.or_eq_true_iff.1 (ka.le_total kb) with hle | hle
  · exact hle
  · -- The other way round, but not smaller: the keys are equal.
    have hswap : ka.compare kb = (kb.compare ka).swap := Std.OrientedCmp.eq_swap
    cases hba : kb.compare ka with
    | lt => exact absurd ⟨kb, ka, hb, ha, hba⟩ h
    | eq => rw [CascadeKey.le, hswap, hba]; rfl
    | gt => rw [CascadeKey.le, hba] at hle; cases hle

/-- The distinct classes with a key, sorted: each is smaller than those after it. -/
theorem pairwise_inCascadeOrder (hraw : ∀ raw k, key raw = some k → k.raw = raw) :
    (inCascadeOrder (keyedBy key classes)).Pairwise (KeyLt key) := by
  have hsorted := @List.pairwise_mergeSort _ (fun a b : KeyedClass => a.2.le b.2)
    (fun _ _ _ => CascadeKey.le_trans) (fun a b => a.2.le_total b.2) (keyedBy key classes)
  have hperm := (keyedBy key classes).mergeSort_perm fun a b => a.2.le b.2
  have hnodup : (inCascadeOrder (keyedBy key classes)).Nodup := by
    rw [inCascadeOrder, (hperm.map Prod.fst).nodup_iff, map_fst_keyedBy]
    exact (nodup_eraseDups classes).filter _
  rw [inCascadeOrder, List.Nodup, List.pairwise_map] at hnodup
  rw [inCascadeOrder, List.pairwise_map]
  refine (hsorted.and hnodup).imp_of_mem fun {a b} ha hb hab => ?_
  have ha := (mem_keyedBy.1 (hperm.mem_iff.1 ha)).2
  have hb := (mem_keyedBy.1 (hperm.mem_iff.1 hb)).2
  refine ⟨a.2, b.2, ha, hb, ?_⟩
  cases hc : a.2.compare b.2 with
  | lt => rfl
  | eq => exact absurd ((hraw _ _ ha).symm.trans
      ((CascadeKey.raw_eq_of_compare_eq hc).trans (hraw _ _ hb))) hab.2
  | gt =>
    have := hab.1
    rw [CascadeKey.le, hc] at this
    cases this

theorem perm_inCascadeOrder : (inCascadeOrder (keyedBy key classes)).Perm
    (classes.eraseDups.filter fun raw => (key raw).isSome) := by
  rw [← map_fst_keyedBy]
  exact ((keyedBy key classes).mergeSort_perm _).map Prod.fst

theorem mem_inCascadeOrder {raw : Text} :
    raw ∈ inCascadeOrder (keyedBy key classes) ↔ raw ∈ classes ∧ (key raw).isSome := by
  rw [perm_inCascadeOrder.mem_iff, List.mem_filter, List.mem_eraseDups]

theorem mem_ranked {keyed : List KeyedClass} {raw : Text} {rank : Option Nat} :
    (raw, rank) ∈ ranked keyed classes ↔
      raw ∈ classes ∧ (inCascadeOrder keyed).idxOf? raw = rank := by
  rw [ranked, List.mem_map]
  constructor
  · rintro ⟨raw', hraw, h⟩
    cases h
    exact ⟨hraw, rfl⟩
  · rintro ⟨hraw, rfl⟩
    exact ⟨raw, hraw, rfl⟩

/-- Ranks are the places among the distinct classes in the order of their keys. -/
theorem ranked_keyedBy (hraw : ∀ raw k, key raw = some k → k.raw = raw) :
    RankedBy key classes (ranked (keyedBy key classes) classes) where
  rows_eq := ⟨(inCascadeOrder (keyedBy key classes)).idxOf?, rfl⟩
  isSome_iff row hrow := by
    obtain ⟨hmem, hrank⟩ := mem_ranked.1 hrow
    rw [← hrank, List.isSome_idxOf?, mem_inCascadeOrder]
    exact ⟨fun h => h.2, fun h => ⟨hmem, h⟩⟩
  mem_iff n := by
    rw [← perm_inCascadeOrder.length_eq]
    constructor
    · rintro ⟨raw, h⟩
      exact (List.idxOf?_eq_some_iff.1 (mem_ranked.1 h).2).1
    · intro h
      -- Without repetitions, the class in a place is found there and not before.
      have hnodup : (inCascadeOrder (keyedBy key classes)).Nodup :=
        perm_inCascadeOrder.nodup_iff.2 ((nodup_eraseDups classes).filter _)
      refine ⟨(inCascadeOrder (keyedBy key classes))[n],
        mem_ranked.2 ⟨(mem_inCascadeOrder.1 (List.getElem_mem h)).1, ?_⟩⟩
      refine List.idxOf?_eq_some_iff.2 ⟨h, rfl, fun j hj heq => ?_⟩
      exact Nat.ne_of_lt hj ((List.getElem_inj hnodup).1 heq)
  lt_iff a b i j ha hb :=
    idxOf?_lt_iff (fun _ _ => KeyLt.asymm) (pairwise_inCascadeOrder hraw) (mem_ranked.1 ha).2
      (mem_ranked.1 hb).2

/-! ## Emission -/

namespace RankedBy

variable {rows : List (Text × Option Nat)}

theorem map_fst (h : RankedBy key classes rows) : rows.map Prod.fst = classes := by
  obtain ⟨rank, rfl⟩ := h.rows_eq
  simp [Function.comp_def]

/-- The classes of the rows with a rank are those with a key, and likewise those without. -/
theorem map_fst_filter (h : RankedBy key classes rows) (p : Bool → Bool) :
    (rows.filter fun row => p row.2.isSome).map Prod.fst
      = classes.filter fun raw => p (key raw).isSome := by
  have hrows : (rows.filter fun row => p row.2.isSome)
      = rows.filter fun row => p (key row.1).isSome :=
    List.filter_congr fun row hrow => by rw [Bool.eq_iff_iff.2 (h.isSome_iff row hrow)]
  rw [hrows, ← h.map_fst, List.filter_map]
  rfl

theorem map_fst_filter_isNone (h : RankedBy key classes rows) :
    (rows.filter fun row => row.2.isNone).map Prod.fst
      = classes.filter fun raw => (key raw).isNone := by
  simp only [← Option.not_isSome]
  exact h.map_fst_filter (! ·)

/-- However the rows with a rank are sorted by it, their classes stand in the order of their
    keys. -/
theorem map_fst_eq_mergeSort (hraw : ∀ raw k, key raw = some k → k.raw = raw)
    (h : RankedBy key classes rows) {sorted : List (Text × Option Nat)}
    (hperm : sorted.Perm (rows.filter fun row => row.2.isSome))
    (hsorted : sorted.Pairwise fun a b => ¬ b.2.getD 0 < a.2.getD 0) :
    sorted.map Prod.fst
      = (classes.filter fun raw => (key raw).isSome).mergeSort (keyLe key) := by
  have hkeyed : (rows.filter fun row => row.2.isSome).map Prod.fst
      = classes.filter fun raw => (key raw).isSome := h.map_fst_filter id
  have hmem {raw : Text} (hr : raw ∈ sorted.map Prod.fst) : (key raw).isSome := by
    rw [(hperm.map Prod.fst).mem_iff, hkeyed] at hr
    exact (List.mem_filter.1 hr).2
  have hsort := List.pairwise_mergeSort (@keyLe_trans key) keyLe_total
    (classes.filter fun raw => (key raw).isSome)
  have hperm' := hperm.map Prod.fst
  rw [hkeyed] at hperm'
  have hperm' := hperm'.trans (List.mergeSort_perm _ (keyLe key)).symm
  refine List.Perm.eq_of_pairwise (fun a b ha hb => ?_) ?_ hsort hperm'
  · exact keyLe_antisymm hraw (hmem ha) (hmem (hperm'.mem_iff.2 hb))
  · rw [List.pairwise_map]
    refine hsorted.imp_of_mem fun {a b} ha hb hab => ?_
    have hka := hmem (List.mem_map_of_mem ha)
    have hkb := hmem (List.mem_map_of_mem hb)
    have ha := (List.mem_filter.1 (hperm.mem_iff.1 ha))
    have hb := (List.mem_filter.1 (hperm.mem_iff.1 hb))
    obtain ⟨raw, rank⟩ := a
    obtain ⟨raw', rank'⟩ := b
    obtain ⟨i, rfl⟩ := Option.isSome_iff_exists.1 ha.2
    obtain ⟨j, rfl⟩ := Option.isSome_iff_exists.1 hb.2
    refine keyLe_of_not_keyLt hka hkb fun hlt => hab ?_
    exact (h.lt_iff raw' raw j i hb.1 ha.1).2 hlt

/-- A stable sort by rank puts the classes with a key in the order of their keys, and leaves
    the others behind, as they came. -/
theorem map_fst_mergeSort (hraw : ∀ raw k, key raw = some k → k.raw = raw)
    (h : RankedBy key classes rows) :
    (rows.mergeSort rankLe).map Prod.fst
      = (classes.filter fun raw => (key raw).isSome).mergeSort (keyLe key)
        ++ classes.filter fun raw => (key raw).isNone := by
  have htrans : ∀ i j k : Nat, decide (i ≤ j) = true → decide (j ≤ k) = true →
      decide (i ≤ k) = true := by
    simp only [decide_eq_true_eq]
    exact fun _ _ _ => Nat.le_trans
  have htotal : ∀ i j : Nat, (decide (i ≤ j) || decide (j ≤ i)) = true := by
    simpa using Nat.le_total
  have hsplit := @mergeSort_noneLast (Text × Option Nat) _ _ Prod.snd htrans htotal rows
  have hsorted : (rows.mergeSort rankLe).Pairwise fun a b => rankLe a b = true :=
    List.pairwise_mergeSort (fun a b c => noneLast_trans htrans a.2 b.2 c.2)
      (fun a b => noneLast_total htotal a.2 b.2) rows
  have hperm := (rows.mergeSort_perm rankLe).filter fun row => row.2.isSome
  change rows.mergeSort rankLe = _ at hsplit
  rw [hsplit, List.map_append]
  congr 1
  · refine h.map_fst_eq_mergeSort hraw hperm ?_
    refine (hsorted.filter _).imp_of_mem fun {a b} ha hb hab => ?_
    obtain ⟨i, hi⟩ := Option.isSome_iff_exists.1 (List.mem_filter.1 ha).2
    obtain ⟨j, hj⟩ := Option.isSome_iff_exists.1 (List.mem_filter.1 hb).2
    simpa [rankLe, hi, hj, noneLast] using hab
  · exact h.map_fst_filter_isNone

/-- So does the order in which rows are emitted. -/
theorem map_fst_emissionOrder (hraw : ∀ raw k, key raw = some k → k.raw = raw)
    (h : RankedBy key classes rows) :
    (emissionOrder rows).map Prod.fst
      = (classes.filter fun raw => (key raw).isSome).mergeSort (keyLe key)
        ++ classes.filter fun raw => (key raw).isNone := by
  rw [emissionOrder, List.map_append, h.map_fst_filter_isNone]
  congr 1
  refine h.map_fst_eq_mergeSort hraw (List.mergeSort_perm _ _) ?_
  refine (List.pairwise_mergeSort ?_ ?_ _).imp fun {a b} hab => ?_
  · simp only [decide_eq_true_eq]
    exact fun _ _ _ => Nat.le_trans
  · intro a b
    simpa using Nat.le_total (a.2.getD 0) (b.2.getD 0)
  · simpa using hab

end RankedBy

end Ranks

/-! ## The ranks of a session -/

namespace Design

/-- The cascade key of a class. There is none if the class gives no CSS. -/
def key? (d : Design) (raw : Text) : Option CascadeKey :=
  (d.keyOf raw).toOption.join

variable {d : Design}

theorem keyOf_eq_ok {raw : Text} {k : Option CascadeKey} (h : d.keyOf raw = .ok k) :
    d.key? raw = k := by
  rw [key?, h]
  rfl

/-- A class has a key exactly if it gives CSS. -/
theorem isSome_key? {raw : Text} :
    (d.key? raw).isSome ↔ ∃ c, d.compilationOf raw = .ok c ∧ c.nodes ≠ [] := by
  rw [key?, keyOf, compilationOf]
  cases d.candidateOf? raw with
  | none => simp [Except.toOption, Compilation.nodes]
  | some candidate =>
    dsimp only
    cases candidate.compile d with
    | error fault => simp [Except.toOption, Except.map]
    | ok c => cases c <;> simp [Except.toOption, Except.map, Compilation.nodes, Compilation.source?]

/-- The key of a class names it. -/
theorem raw_of_key? (raw : Text) (k : CascadeKey) (h : d.key? raw = some k) : k.raw = raw := by
  rw [key?, keyOf] at h
  cases hc : d.candidateOf? raw with
  | none => simp [hc, Except.toOption] at h
  | some candidate =>
    have hraw := Candidate.raw_of_ofText? hc
    simp only [hc] at h
    cases hr : candidate.compile d with
    | error fault => simp [hr, Except.toOption, Except.map] at h
    | ok c =>
      cases c with
      | refused reason =>
        simp [hr, Except.toOption, Except.map, Compilation.source?] at h
      | produced node source =>
        simp only [hr, Except.toOption, Except.map, Compilation.source?, Option.map_some,
          Option.join_some, Option.some.injEq] at h
        rw [← h, ← hraw]
        rfl

/-- Ranks are given exactly if no class breaks the work off, and they are the ranks by key. -/
theorem rankAll_eq_ok {classes : List Text} {rows : List (Text × Option Nat)} :
    d.rankAll classes = .ok rows ↔
      (∀ raw ∈ classes, ∃ k, d.keyOf raw = .ok k) ∧
        rows = ranked (keyedBy d.key? classes) classes := by
  have hkeyed (raw : Text) : ((d.keyOf raw).map (·.map (raw, ·))).toOption.join
      = (d.key? raw).map (raw, ·) := by
    rw [key?]
    cases d.keyOf raw <;> rfl
  have hok (raw : Text) : (∃ p, (d.keyOf raw).map (·.map (raw, ·)) = .ok p) ↔
      ∃ k, d.keyOf raw = .ok k := by
    cases d.keyOf raw <;> simp [Except.map]
  rw [rankAll]
  cases h : classes.eraseDups.filterMapM fun raw => (d.keyOf raw).map (·.map (raw, ·)) with
  | error fault =>
    have hno : ¬ ∀ raw ∈ classes, ∃ k, d.keyOf raw = .ok k := fun hall => by
      have := filterMapM_eq_ok.2
        ⟨fun raw hraw => (hok raw).2 (hall raw (List.mem_eraseDups.1 hraw)), rfl⟩
      rw [h] at this
      cases this
    simp [Except.map, hno]
  | ok keyed =>
    obtain ⟨hall, rfl⟩ := filterMapM_eq_ok.1 h
    simp only [hok, List.mem_eraseDups] at hall
    simp only [hkeyed]
    rw [Except.map, Except.ok.injEq]
    exact ⟨fun hr => ⟨hall, hr.symm⟩, fun hr => hr.2.symm⟩

/-- The classes that have a key, in the order of their keys, and then the others as they came. -/
def emittedBy (key : Text → Option CascadeKey) (classes : List Text) : List Text :=
  (classes.filter fun raw => (key raw).isSome).mergeSort (keyLe key)
    ++ classes.filter fun raw => (key raw).isNone

theorem replyAfter_order {before : List Request} {classes : List Text}
    {rows : List (Text × Option Nat)} :
    d.replyAfter before (.order classes) = .ok (.order rows) ↔ d.rankAll classes = .ok rows := by
  rw [d.replyAfter_eq before rfl, ofFault_map_eq_ok]
  simp

theorem replyAfter_cascadeKey {before : List Request} {raw : Text} {k : Option CascadeKey} :
    d.replyAfter before (.cascadeKey raw) = .ok (.cascadeKey k) ↔ d.keyOf raw = .ok k := by
  rw [d.replyAfter_eq before rfl, ofFault_map_eq_ok]
  simp

/-- *Cascade order is a total order of its own*, in any session. Ranks are given if no class
    breaks the work off. Then every class that gives CSS has a key, and no other class has the
    same; the ranks are the numbers from zero on and compare as the keys, so that the ranks of
    other batches agree with them. A stable sort by rank, and the order of emission, put the
    classes with a key in the order of their keys and leave the others behind. -/
theorem order_total (d : Design) (before : List Request) (classes : List Text) :
    ((∃ rows, d.replyAfter before (.order classes) = .ok (.order rows)) ↔
      ∀ raw ∈ classes, ∃ k, d.replyAfter before (.cascadeKey raw) = .ok (.cascadeKey k)) ∧
    ∀ rows, d.replyAfter before (.order classes) = .ok (.order rows) →
      (∀ raw ∈ classes,
        d.replyAfter before (.cascadeKey raw) = .ok (.cascadeKey (d.key? raw)) ∧
        ((d.key? raw).isSome ↔ ∃ report,
          d.replyAfter before (.compile raw) = .ok (.compilation report) ∧ report.nodes ≠ [])) ∧
      (∀ a b ka kb, d.key? a = some ka → d.key? b = some kb → (ka.compare kb = .eq ↔ a = b)) ∧
      RankedBy d.key? classes rows ∧
      (∀ before' classes' rows', d.replyAfter before' (.order classes') = .ok (.order rows') →
        ∀ a b i j i' j', (a, some i) ∈ rows → (b, some j) ∈ rows → (a, some i') ∈ rows' →
          (b, some j') ∈ rows' → (i < j ↔ i' < j')) ∧
      (rows.mergeSort rankLe).map Prod.fst = emittedBy d.key? classes ∧
      (emissionOrder rows).map Prod.fst = emittedBy d.key? classes := by
  simp only [replyAfter_order, replyAfter_cascadeKey, rankAll_eq_ok]
  refine ⟨⟨fun ⟨_, h, _⟩ => h, fun h => ⟨_, h, rfl⟩⟩, ?_⟩
  rintro rows ⟨hall, rfl⟩
  have hranked (classes : List Text) :
      RankedBy d.key? classes (ranked (keyedBy d.key? classes) classes) :=
    ranked_keyedBy raw_of_key?
  refine ⟨fun raw hraw => ⟨?_, ?_⟩, fun a b ka kb ha hb => ⟨fun h => ?_, ?_⟩, hranked classes, ?_,
    (hranked classes).map_fst_mergeSort raw_of_key?,
    (hranked classes).map_fst_emissionOrder raw_of_key?⟩
  · obtain ⟨k, hk⟩ := hall raw hraw
    rw [hk, keyOf_eq_ok hk]
  · rw [isSome_key?]
    constructor
    · rintro ⟨c, hc, hne⟩
      exact ⟨_, replyAfter_compile.2 ⟨c, hc, rfl⟩, hne⟩
    · rintro ⟨_, hr, hne⟩
      obtain ⟨c, hc, rfl⟩ := replyAfter_compile.1 hr
      exact ⟨c, hc, hne⟩
  · rw [← raw_of_key? a ka ha, ← raw_of_key? b kb hb]
    exact CascadeKey.raw_eq_of_compare_eq h
  · rintro rfl
    rw [ha] at hb
    cases hb
    exact Std.ReflCmp.compare_self
  · rintro _ classes' rows' ⟨_, rfl⟩ a b i j i' j' ha hb ha' hb'
    rw [(hranked classes).lt_iff a b i j ha hb, (hranked classes').lt_iff a b i' j' ha' hb']

/-- One class comes twice, one gives no CSS, and a batch broke off before. -/
theorem order_total_after_rejection :
    let before : List Request := [.batch ["nope"] true]
    let classes : List Text := ["hover:underline", "nope", "underline", "hover:underline"]
    let rows : List (Text × Option Nat) :=
      [("hover:underline", some 1), ("nope", none), ("underline", some 0),
        ("hover:underline", some 1)]
    tiny.replyAfter before (.order classes) = .ok (.order rows) ∧
      RankedBy tiny.key? classes rows := by
  intro before classes rows
  obtain ⟨a, b, hkeyed, hle⟩ : ∃ a b, keyedBy tiny.key? classes
      = [("hover:underline".toList, a), ("underline".toList, b)] ∧ a.le b = false :=
    ⟨_, _, rfl, rfl⟩
  have hsort : [("hover:underline".toList, a), ("underline".toList, b)].mergeSort
      (fun a b => a.2.le b.2) = [("underline".toList, b), ("hover:underline".toList, a)] := by
    simp [List.mergeSort, List.MergeSort.Internal.splitInTwo, hle]
  have h : tiny.replyAfter before (.order classes) = .ok (.order rows) := by
    refine replyAfter_order.2 (rankAll_eq_ok.2 ⟨?_, ?_⟩)
    · simp only [classes, List.forall_mem_cons, List.not_mem_nil, false_implies, implies_true,
        and_true]
      exact ⟨⟨_, rfl⟩, ⟨_, rfl⟩, ⟨_, rfl⟩, ⟨_, rfl⟩⟩
    · rw [ranked, hkeyed, inCascadeOrder, hsort]
      rfl
  exact ⟨h, ((order_total tiny _ _).2 _ h).2.2.1⟩

end Design

end UtilityCss
