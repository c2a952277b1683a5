import Chomsky.Fault

/-!
The triangle of the spans of a word. Cell `(row, col)` stands for the `row + 1` positions from
`col` on, so a word of length `len` has `len - row` cells in each row. The cells lie row after
row in one array.
-/

namespace Chomsky.Triangle

/-- The cells in the order in which they lie. -/
def cells (len : Nat) : List (Nat × Nat) :=
  (List.range len).flatMap fun row => (List.range (len - row)).map (row, ·)

/-- The number of cells. -/
def size (len : Nat) : Except Fault Nat := do
  let next ← Size.add len 1
  let square ← Size.mul len next
  pure (square / 2)

def Contains (len row col : Nat) : Prop := row < len ∧ col < len - row

instance (len row col : Nat) : Decidable (Contains len row col) :=
  inferInstanceAs (Decidable (_ ∧ _))

/-- Where a cell lies: row `k` has `len - k` cells. -/
def offset (len row col : Nat) : Except Fault Nat :=
  if Contains len row col then do
    let above ← Size.mul row len
    let missing ← Size.mul row (row - 1)
    let first ← Size.sub above (missing / 2)
    Size.add first col
  else .error .outOfRange

/-- The cells of the first `after` positions of a span and of the rest of it. -/
def parts (row col after : Nat) : Except Fault ((Nat × Nat) × (Nat × Nat)) := do
  let below ← Size.sub after 1
  let rest ← Size.sub row after
  let next ← Size.add col after
  pure ((below, col), (rest, next))

/-- Both parts of a span are shorter than it. -/
theorem parts_lt {row col after : Nat} {l r : Nat × Nat}
    (h : parts row col after = .ok (l, r)) : l.1 < row ∧ r.1 < row := by
  unfold parts Size.sub at h
  by_cases h₁ : 1 ≤ after <;> by_cases h₂ : after ≤ row <;>
    simp only [h₁, h₂, if_true, if_false, bind, Except.bind, pure, Except.pure] at h <;>
    try contradiction
  split at h
  · contradiction
  · cases h
    constructor <;> simp only <;> omega

end Chomsky.Triangle
