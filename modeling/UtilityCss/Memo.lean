import UtilityCss.OrderedMap

/-!
# Memos

A memo keeps the result of a computation for every text it was asked for, in the
order in which the results came. A computation that fails leaves nothing behind, so
it runs again when it is asked for again.

The computation itself may use and change the state that the memo is part of, for
instance another memo. A `MemoPlace` says where in the state the memo lies.

* `MemoPlace.fetch`: the kept result, or else the computed one, which is then kept.
-/

namespace UtilityCss

/-- The results of a computation, by the text they are for. -/
abbrev Memo (α : Type) := OrderedMap α

namespace Memo

/-- A short description: how many results are kept. -/
def describe {α : Type} (memo : Memo α) : Text :=
  Text.join [] ["MemoCache(size=", Text.ofNat memo.size, ")"]

end Memo

/-- Where a memo lies in a state. -/
structure MemoPlace (σ α : Type) where
  get : σ → Memo α
  set : Memo α → σ → σ

namespace MemoPlace

variable {σ α : Type}

/-- Keeps a result in the memo of a state. -/
def keep (place : MemoPlace σ α) (key : Text) (value : α) (s : σ) : σ :=
  place.set ((place.get s).insert key value) s

/-- The result for a text: the one that is kept, or the computed one. -/
def fetch {m : Type → Type} [Monad m] [MonadStateOf σ m] (place : MemoPlace σ α)
    (compute : Text → m α) (key : Text) : m α := do
  match (place.get (← getThe σ)).get? key with
  | some value => return value
  | none =>
    let value ← compute key
    modifyThe σ (place.keep key value)
    return value

end MemoPlace

end UtilityCss
