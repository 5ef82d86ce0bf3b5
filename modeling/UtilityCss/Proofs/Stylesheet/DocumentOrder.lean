import Mathlib.Data.List.Sort
import Mathlib.Order.Lex
import UtilityCss.Stylesheet.Basic

/-!
# Document order

The declarations of a stylesheet come in document order: those of a node before those of the next
one. Without a search, this is the order of their *paths*: the place of a node in its row, then the
place in the row inside that node, and so on, compared place by place.

A *walk* finds the declarations one after the other. It keeps the nodes that are still ahead, and
what is inside a node is put in front of them. A step changes what was found and what is ahead, but
not the declarations of both taken together, and it takes one node away.

* `declarationAt?`, `InDocumentOrder`: the declaration at a path, and all of them by their paths;
* `inDocumentOrder_iff`: `declarationsOfAll` has them in this order, and nothing else does;
* `Walk.step?`, `walk`: a step of a walk, and what a whole walk finds;
* `walk_eq`: a walk finds what `declarationsOfAll` has.
-/

namespace UtilityCss

namespace Node

/-! ## Paths -/

/-- The declaration at a path: the first place is that of a node in the row, and the others lead on
    inside it. -/
def declarationAt? (nodes : List Node) : List Nat → Option Declaration
  | [] => none
  | place :: path =>
    match nodes[place]? with
    | some (declaration d) => if path.isEmpty then some d else none
    | some (rule _ inside) => declarationAt? inside path
    | some (atRule _ _ inside) => declarationAt? inside path
    | none => none

/-- The declarations are those that stand at some path, by the order of the paths. -/
def OrderedByPath (at? : List Nat → Option Declaration) (declarations : List Declaration) : Prop :=
  ∃ paths : List (List Nat), paths.Pairwise (· < ·) ∧ (∀ path, path ∈ paths ↔ (at? path).isSome) ∧
    paths.map at? = declarations.map some

/-- The declarations are those of a row of nodes, by the order of the paths. -/
def InDocumentOrder (nodes : List Node) (declarations : List Declaration) : Prop :=
  OrderedByPath (declarationAt? nodes) declarations

/-- There is only one order by paths. -/
theorem OrderedByPath.eq {at? : List Nat → Option Declaration} {ds ds' : List Declaration}
    (h : OrderedByPath at? ds) (h' : OrderedByPath at? ds') : ds = ds' := by
  obtain ⟨paths, hsorted, hmem, hds⟩ := h
  obtain ⟨paths', hsorted', hmem', hds'⟩ := h'
  have hpaths : paths = paths' :=
    hsorted.eq_of_mem_iff hsorted' fun path => (hmem path).trans (hmem' path).symm
  rw [← hpaths, hds] at hds'
  exact List.map_injective_iff.2 (Option.some_injective _) hds'

/-- The path to the same node in a row with one more node in front. -/
def nextPath : List Nat → List Nat
  | [] => []
  | place :: path => (place + 1) :: path

theorem declarationAt?_nextPath (node : Node) (nodes : List Node) (path : List Nat) :
    declarationAt? (node :: nodes) (nextPath path) = declarationAt? nodes path := by
  rcases path with _ | ⟨place, path⟩
  · rfl
  · rfl

theorem nextPath_lt {path path' : List Nat} (h : path < path') : nextPath path < nextPath path' := by
  rcases h with _ | h | h
  · exact .nil
  · exact .rel (Nat.succ_lt_succ h)
  · exact .cons h

theorem mem_map_nextPath {paths : List (List Nat)} (hnil : [] ∉ paths) {path : List Nat} :
    path ∈ paths.map nextPath ↔ ∃ place rest, path = (place + 1) :: rest ∧ place :: rest ∈ paths := by
  rw [List.mem_map]
  constructor
  · rintro ⟨path, hpath, rfl⟩
    rcases path with _ | ⟨place, rest⟩
    · exact absurd hpath hnil
    · exact ⟨place, rest, rfl, hpath⟩
  · rintro ⟨place, rest, rfl, hpath⟩
    exact ⟨place :: rest, hpath, rfl⟩

theorem inDocumentOrder_nil : InDocumentOrder [] [] := by
  refine ⟨[], .nil, fun path => ?_, rfl⟩
  rcases path with _ | ⟨place, path⟩
  · simp [declarationAt?]
  · simp [declarationAt?]

/-- A declaration stands where the path to its node ends. -/
theorem orderedByPath_declaration (d : Declaration) :
    OrderedByPath (fun path => declarationAt? [declaration d] (0 :: path)) [d] := by
  refine ⟨[[]], List.pairwise_singleton _ _, fun path => ?_, rfl⟩
  rcases path with _ | ⟨place, path⟩
  · simp [declarationAt?]
  · simp [declarationAt?]

/-- What is inside the first node of a row comes before what is in the nodes behind it. -/
theorem OrderedByPath.row {node : Node} {nodes : List Node} {ds ds' : List Declaration}
    (hinside : OrderedByPath (fun path => declarationAt? [node] (0 :: path)) ds)
    (hbehind : InDocumentOrder nodes ds') : InDocumentOrder (node :: nodes) (ds ++ ds') := by
  obtain ⟨first, hfirst, hmem, hds⟩ := hinside
  obtain ⟨later, hlater, hmem', hds'⟩ := hbehind
  have hnil : [] ∉ later := fun h => by cases (hmem' []).1 h
  refine ⟨first.map (0 :: ·) ++ later.map nextPath, ?_, fun path => ?_, ?_⟩
  · rw [List.pairwise_append, List.pairwise_map, List.pairwise_map]
    refine ⟨hfirst.imp .cons, hlater.imp nextPath_lt, fun path hpath path' hpath' => ?_⟩
    -- A path into the first node begins with `0`, and any other with a later place.
    obtain ⟨inner, _, rfl⟩ := List.mem_map.1 hpath
    obtain ⟨place, rest, rfl, _⟩ := (mem_map_nextPath hnil).1 hpath'
    exact .rel (Nat.succ_pos place)
  · rw [List.mem_append, List.mem_map, mem_map_nextPath hnil]
    rcases path with _ | ⟨_ | place, path⟩
    · simp [declarationAt?]
    · have hfront : declarationAt? (node :: nodes) (0 :: path) = declarationAt? [node] (0 :: path) :=
        rfl
      simpa [hfront] using hmem path
    · have hback : declarationAt? (node :: nodes) ((place + 1) :: path)
          = declarationAt? nodes (place :: path) :=
        declarationAt?_nextPath node nodes (place :: path)
      simpa [hback] using hmem' (place :: path)
  · rw [List.map_append, List.map_map, List.map_map, List.map_append, ← hds, ← hds']
    congr 1
    exact List.map_congr_left fun path _ => declarationAt?_nextPath node nodes path

mutual

theorem orderedByPath_declarations (node : Node) :
    OrderedByPath (fun path => declarationAt? [node] (0 :: path)) (declarations node) := by
  rcases node with d | ⟨_, nodes⟩ | ⟨_, _, nodes⟩
  · exact orderedByPath_declaration d
  · exact inDocumentOrder_declarationsOfAll nodes
  · exact inDocumentOrder_declarationsOfAll nodes

theorem inDocumentOrder_declarationsOfAll (nodes : List Node) :
    InDocumentOrder nodes (declarationsOfAll nodes) := by
  rcases nodes with _ | ⟨node, nodes⟩
  · exact inDocumentOrder_nil
  · exact (orderedByPath_declarations node).row (inDocumentOrder_declarationsOfAll nodes)

end

/-- The declarations of a row of nodes in document order are what `declarationsOfAll` has. -/
theorem inDocumentOrder_iff {nodes : List Node} {ds : List Declaration} :
    InDocumentOrder nodes ds ↔ ds = declarationsOfAll nodes := by
  constructor
  · intro h
    exact h.eq (inDocumentOrder_declarationsOfAll nodes)
  · rintro rfl
    exact inDocumentOrder_declarationsOfAll nodes

/-! ## Walks -/

mutual

/-- The number of nodes in a node, itself among them. -/
def count : Node → Nat
  | declaration _ => 1
  | rule _ nodes => countAll nodes + 1
  | atRule _ _ nodes => countAll nodes + 1

/-- The number of nodes in a row of nodes. -/
def countAll : List Node → Nat
  | [] => 0
  | node :: nodes => count node + countAll nodes

end

theorem countAll_append (nodes nodes' : List Node) :
    countAll (nodes ++ nodes') = countAll nodes + countAll nodes' := by
  induction nodes with
  | nil => exact (Nat.zero_add _).symm
  | cons node nodes ih => rw [List.cons_append, countAll, countAll, ih, Nat.add_assoc]

theorem declarationsOfAll_append (nodes nodes' : List Node) :
    declarationsOfAll (nodes ++ nodes') = declarationsOfAll nodes ++ declarationsOfAll nodes' := by
  simp only [declarationsOfAll_eq_flatMap, List.flatMap_append]

/-- A walk: the nodes that are still ahead, the next one first, and the declarations that were
    found. -/
structure Walk where
  ahead : List Node
  found : List Declaration

namespace Walk

variable {w w' : Walk}

/-- A step of a walk, unless nothing is ahead. -/
def step? (w : Walk) : Option Walk :=
  match w.ahead with
  | [] => none
  | declaration d :: ahead => some ⟨ahead, w.found ++ [d]⟩
  | rule _ inside :: ahead => some ⟨inside ++ ahead, w.found⟩
  | atRule _ _ inside :: ahead => some ⟨inside ++ ahead, w.found⟩

/-- A step takes one node away. -/
theorem countAll_of_step? (h : w.step? = some w') : countAll w.ahead = countAll w'.ahead + 1 := by
  rcases w with ⟨_ | ⟨d | ⟨_, inside⟩ | ⟨_, _, inside⟩, ahead⟩, found⟩
  · cases h
  · cases h
    exact Nat.add_comm 1 _
  · cases h
    rw [countAll, count, countAll_append, Nat.add_right_comm]
  · cases h
    rw [countAll, count, countAll_append, Nat.add_right_comm]

/-- A step leaves the declarations that were found and those ahead the same, taken together. -/
theorem declarations_of_step? (h : w.step? = some w') :
    w'.found ++ declarationsOfAll w'.ahead = w.found ++ declarationsOfAll w.ahead := by
  rcases w with ⟨_ | ⟨d | ⟨_, inside⟩ | ⟨_, _, inside⟩, ahead⟩, found⟩
  · cases h
  · cases h
    exact List.append_assoc found [d] _
  · cases h
    rw [declarationsOfAll_append]
    rfl
  · cases h
    rw [declarationsOfAll_append]
    rfl

theorem ahead_of_step?_eq_none (h : w.step? = none) : w.ahead = [] := by
  rcases w with ⟨_ | ⟨d | ⟨_, inside⟩ | ⟨_, _, inside⟩, ahead⟩, found⟩
  · rfl
  · cases h
  · cases h
  · cases h

/-- What a walk has found when nothing is ahead any more. -/
def finish (w : Walk) : List Declaration :=
  match _h : w.step? with
  | none => w.found
  | some w' => w'.finish
termination_by countAll w.ahead
decreasing_by exact Nat.lt_of_succ_le (countAll_of_step? ‹_›).ge

theorem finish_eq (w : Walk) : w.finish = w.found ++ declarationsOfAll w.ahead := by
  -- By induction on the steps: no step changes the right-hand side, and at the end nothing is ahead.
  fun_induction finish w with
  | case1 w hstep =>
    rw [ahead_of_step?_eq_none hstep]
    exact (List.append_nil w.found).symm
  | case2 w w' hstep ih => rw [ih, declarations_of_step? hstep]

end Walk

/-- The declarations that a walk over a row of nodes finds. -/
def walk (nodes : List Node) : List Declaration :=
  (Walk.mk nodes []).finish

/-- A walk finds the declarations of all nodes. -/
theorem walk_eq (nodes : List Node) : walk nodes = declarationsOfAll nodes :=
  (Walk.mk nodes []).finish_eq

end Node

end UtilityCss
