import UtilityCss.Proofs.Memo.History

/-!
# Memos behind locks

A memo may be guarded by a row of locks, one of which is that of a key, by its hash. A get looks
first without a lock. If nothing is kept, it takes the lock of the key, asks the memo, which looks
once more, and gives the lock back, whatever the outcome. Who finds the lock taken never comes back,
as there is nobody else to give it back.

Gets that are made one after the other find every lock free. So the locks change nothing, however
many they are, and a history of gets is that of the memo alone.

* `Guarded.get`, `Guarded.gets`: gets behind locks, which may get stuck;
* `Guarded.get_start`, `Guarded.gets_start`: they do not, and do what gets without locks do;
* `memo_toldBy_gets`: what a memo behind locks keeps, and how often its computation runs.
-/

namespace UtilityCss

/-- A state behind locks, each of which may be held. -/
structure Guarded (σ : Type) where
  held : List Bool
  state : σ

namespace Guarded

variable {σ ε α W : Type}

/-- A state behind free locks. There is always one lock. -/
def start (stripes : Int) (state : σ) : Guarded σ :=
  ⟨List.replicate (max 1 stripes).toNat false, state⟩

/-- Takes a lock, if it is there and free. -/
def take? (g : Guarded σ) (lock : Nat) : Option (Guarded σ) :=
  if g.held[lock]? = some false then some { g with held := g.held.set lock true } else none

/-- Gives a lock back. -/
def giveBack (g : Guarded σ) (lock : Nat) : Guarded σ :=
  { g with held := g.held.set lock false }

/-- The lock of a key with a hash. -/
def lockOf (g : Guarded σ) (hash : Int) : Nat :=
  (hash % g.held.length).toNat

/-- The outcome of asking for a key behind the locks, unless that never ends. -/
def get (f : Text → W → Except ε α × W) (hash : Text → Int) (g : Guarded (MemoAtWork ε α W))
    (key : Text) : Option (Except ε α × Guarded (MemoAtWork ε α W)) :=
  match g.state.memo.get? key with
  | some value => some (.ok value, g)
  | none => do
    let lock := g.lockOf (hash key)
    let taken ← g.take? lock
    let (outcome, state) := taken.state.get f key
    return (outcome, giveBack { taken with state := state } lock)

/-- The outcomes of asking for some keys one after the other. -/
def gets (f : Text → W → Except ε α × W) (hash : Text → Int) (g : Guarded (MemoAtWork ε α W))
    (keys : List Text) : Option (List (Text × Except ε α) × Guarded (MemoAtWork ε α W)) :=
  keys.foldlM (fun r key => (r.2.get f hash key).map fun got => (r.1 ++ [(key, got.1)], got.2))
    ([], g)

variable {f : Text → W → Except ε α × W} {hash : Text → Int}

/-- The lock of a key is there, and it is free. -/
theorem held_lockOf (stripes : Int) (state : σ) (hash : Int) :
    (start stripes state).held[(start stripes state).lockOf hash]? = some false := by
  have hpos : 0 < ((max 1 stripes).toNat : Int) := by omega
  have hlock : (start stripes state).lockOf hash < (max 1 stripes).toNat := by
    rw [lockOf, start, List.length_replicate]
    exact (Int.toNat_lt (Int.emod_nonneg hash (Int.ne_of_gt hpos))).2 (Int.emod_lt_of_pos hash hpos)
  rw [start, List.getElem?_replicate]
  exact if_pos hlock

theorem take?_start (stripes : Int) (state : σ) (hash : Int) :
    (start stripes state).take? ((start stripes state).lockOf hash)
      = some ⟨(start stripes state).held.set ((start stripes state).lockOf hash) true, state⟩ :=
  if_pos (held_lockOf stripes state hash)

theorem giveBack_take (stripes : Int) (state state' : σ) (lock : Nat) :
    giveBack ⟨(start stripes state).held.set lock true, state'⟩ lock = start stripes state' := by
  rw [giveBack, List.set_set, start, List.set_replicate_self]
  rfl

/-- Behind free locks, a get comes back, and leaves the locks free. -/
theorem get_start (stripes : Int) (s : MemoAtWork ε α W) (key : Text) :
    (start stripes s).get f hash key = some ((s.get f key).1, start stripes (s.get f key).2) := by
  have hstate : (start stripes s).state = s := rfl
  rw [get, hstate]
  rcases hkept : s.memo.get? key with _ | value
  · -- Nothing is kept: the lock of the key is taken, and given back with what comes of the state.
    have htake := take?_start stripes s (hash key)
    change Option.bind ((start stripes s).take? _) _ = _
    rw [htake]
    exact congrArg (fun g => some ((s.get f key).1, g)) (giveBack_take stripes s _ _)
  · rw [MemoAtWork.get_eq, hkept]

/-- So do many gets, one after the other. -/
theorem gets_start (stripes : Int) (s : MemoAtWork ε α W) (keys : List Text) :
    (start stripes s).gets f hash keys
      = some ((s.gets f keys).1, start stripes (s.gets f keys).2) := by
  induction keys using List.reverseRecOn with
  | nil => rfl
  | append_singleton keys key ih =>
    rw [gets] at ih ⊢
    rw [List.foldlM_append, ih, MemoAtWork.gets_concat]
    change Option.map _ ((start stripes (s.gets f keys).2).get f hash key) >>= pure = _
    rw [get_start]
    rfl

end Guarded

/-- *A memo is told by its gets*: whatever the computation does, and however many locks there are,
    gets that are made one after the other all come back. The computation succeeds once for each key
    that is kept, and runs anew whenever it failed before; a get that fails leaves what is kept as
    it is; one that succeeds gives the value that was computed first; and the values are kept in
    the order of their keys, which is that of their first success. -/
theorem memo_toldBy_gets {ε α W : Type} (f : Text → W → Except ε α × W) (world : W)
    (stripes : Int) (hash : Text → Int) (keys : List Text) :
    ∃ outcomes s, (Guarded.start stripes (.start world)).gets f hash keys
        = some (outcomes, .start stripes s) ∧
      (MemoAtWork.start world).gets f keys = (outcomes, s) ∧ outcomes.map Prod.fst = keys ∧
      s.ToldBy f outcomes := by
  refine ⟨_, _, Guarded.gets_start stripes _ keys, rfl, ?_, ?_⟩
  · exact MemoAtWork.map_fst_gets keys
  · exact (MemoAtWork.remembers_gets f world keys).toldBy f

end UtilityCss
