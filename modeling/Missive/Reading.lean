import Missive.Error

/-!
# Missive.Reading

What the stream readers of both formats share.

A reader tells whether the container that it is in has more, and loops ask for that before each
step.  They are made for a given number of steps; a reader knows one that is enough.
-/

namespace Missive

/-- Repeat a step on a value while there is more, at most `fuel` times. -/
def repeatNext {σ α : Type} (hasNext : EStateM ReadError σ Bool)
    (step : α → EStateM ReadError σ α) : Nat → α → EStateM ReadError σ α
  | 0, a => return a
  | fuel + 1, a => do
    if ← hasNext then repeatNext hasNext step fuel (← step a) else return a

end Missive
