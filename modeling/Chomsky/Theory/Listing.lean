import Chomsky.Forest

/-!
Two other listings of the trees of a forest: all of them, without a limit, and into one list that
is added to until it is full, where how many trees are still wanted is a checked difference.
-/

namespace Chomsky.Forest

/-! ### All trees -/

/-- No reasons where a cell is missing. -/
def reasons (f : Forest) (row col symbol : Nat) : List Pointer :=
  match f.pointers row col symbol with
  | .ok ps => ps
  | .error _ => []

/-- The trees of a symbol over a span, reason by reason, and for a pair with the left tree
varying slowest. -/
def allTreesAt (f : Forest) (row col symbol : Nat) : List Tree :=
  (f.reasons row col symbol).flatMap fun p =>
    match p with
    | .terminal t => [Tree.node symbol [Tree.leaf t col]]
    | .split after left right =>
      match _h : Triangle.parts row col after with
      | .error _ => []
      | .ok (l, r) =>
        (allTreesAt f l.1 l.2 left).flatMap fun lt =>
          (allTreesAt f r.1 r.2 right).map fun rt => Tree.node symbol [lt, rt]
termination_by row
decreasing_by
  · exact (Triangle.parts_lt _h).2
  · exact (Triangle.parts_lt _h).1

def allTrees (f : Forest) : List Tree :=
  f.roots.flatMap (f.allTreesAt (f.len - 1) 0)

/-! ### Up to a limit -/

end Chomsky.Forest
