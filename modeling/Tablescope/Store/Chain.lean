import Tablescope.Store.Action

/-!
# Chains of requests

What is too long for one answer comes in portions. A portion says where to go on, and the next one
is asked for from there. A chain of requests is over when there is no more or enough is there; when
no more requests are allowed before that, it fails.
-/

namespace Tablescope

/-- One portion of something longer. -/
structure Portion (α κ : Type) where
  items : List α
  /-- The place to go on from; none if there is no more. -/
  last : Option κ
  deriving DecidableEq

/-- Asks for at most `trips` portions until enough items are there or there are no more, and gives
the items, those at hand first, with the place the last portion got to. -/
def Action.gather {σ α κ : Type} (ask : Option κ → Action σ (Portion α κ)) (enough : Nat → Prop)
    [DecidablePred enough] (roundTrips : Nat) :
    Nat → List α → Option κ → Action σ (List α × Option κ)
  | 0, items, _ => .fail (.roundTripLimit roundTrips items.length)
  | trips + 1, items, start => do
    let portion ← ask start
    let items := items ++ portion.items
    if portion.last = none ∨ enough items.length then return (items, portion.last)
    else gather ask enough roundTrips trips items portion.last

end Tablescope
