/-!
# FixedPoint — repeating until nothing is added

A step may add something to a state, and tells whether it has.  A pass takes one step for each
element of a list, and `repeatPass` makes one pass after the other as long as they add something.
Its users choose the bound on the passes as the number of things that can be added at all.
-/

namespace ShiftReduce.FixedPoint

variable {σ β : Type}

/-- One step for each element of a list, and whether any of them has added something. -/
def pass (f : σ → β → σ × Bool) (l : List β) (s : σ) : σ × Bool :=
  l.foldl (fun (s, added) b => let (s, more) := f s b; (s, added || more)) (s, false)

/-- Repeats a pass as long as it adds something, at most `n` times. -/
def repeatPass (f : σ → σ × Bool) : Nat → σ → σ
  | 0, s => s
  | n + 1, s => let (s, added) := f s; if added then repeatPass f n s else s

end ShiftReduce.FixedPoint
