import Mathlib.Algebra.Group.Nat.Even
import Mathlib.Data.List.Nodup
import Mathlib.Tactic.Ring
import Chomsky.Triangle

/-!
The layout of the triangle: the cells come row by row without repetition, and the offset of a cell
is its position among them. Whatever is shorter comes before.
-/

namespace Chomsky.Triangle

variable {len row col : Nat}

/-- The number of cells in the rows above a row. -/
def above (len row : Nat) : Nat := ((List.range row).map (len - ·)).sum

lemma above_succ (len row : Nat) : above len (row + 1) = above len row + (len - row) := by
  simp [above, List.range_succ]

lemma triangle_succ (n : Nat) : (n + 1) * n / 2 = n * (n - 1) / 2 + n := by
  cases n with
  | zero => rfl
  | succ n =>
    have : (n + 1 + 1) * (n + 1) = (n + 1) * n + (n + 1) * 2 := by ring
    rw [this, Nat.add_mul_div_right _ _ (by decide), Nat.add_sub_cancel]

lemma above_add (h : row ≤ len) : above len row + row * (row - 1) / 2 = row * len := by
  induction row with
  | zero => simp [above]
  | succ row ih =>
    have ih := ih (by omega)
    rw [above_succ, Nat.add_sub_cancel, triangle_succ, Nat.succ_mul]
    omega

/-! ### The cells in order -/

lemma mem_cells : (row, col) ∈ cells len ↔ Contains len row col := by
  simp [cells, Contains]

/-- The order of the cells. -/
def Before (a b : Nat × Nat) : Prop := a.1 < b.1 ∨ a.1 = b.1 ∧ a.2 < b.2

lemma pairwise_cells (len : Nat) : (cells len).Pairwise Before := by
  refine List.pairwise_flatMap.2 ⟨fun row _ => ?_, ?_⟩
  · refine List.pairwise_map.2 (List.pairwise_lt_range.imp fun h => ?_)
    exact .inr ⟨rfl, h⟩
  · refine List.pairwise_lt_range.imp fun h a ha b hb => ?_
    obtain ⟨_, -, rfl⟩ := List.mem_map.1 ha
    obtain ⟨_, -, rfl⟩ := List.mem_map.1 hb
    exact .inl h

lemma nodup_cells (len : Nat) : (cells len).Nodup :=
  (pairwise_cells len).imp fun {a b} h hab => by
    subst hab
    rcases h with h | ⟨-, h⟩ <;> exact Nat.lt_irrefl _ h

section Prefix

variable {xs ys : List (Nat × Nat)} {x y : Nat × Nat}

lemma not_mem_of_cells (h : cells len = xs ++ x :: ys) : x ∉ xs := by
  have hnodup := nodup_cells len
  rw [h] at hnodup
  exact fun hmem => (List.nodup_append.1 hnodup).2.2 x hmem x List.mem_cons_self rfl

/-- Whatever comes before a cell in the order stands before it. -/
lemma mem_of_before (h : cells len = xs ++ x :: ys) (hy : y ∈ cells len) (hyx : Before y x) :
    y ∈ xs := by
  have hsorted := pairwise_cells len
  rw [h] at hsorted hy
  obtain hy | hy := List.mem_append.1 hy
  · exact hy
  · have hxy : y = x ∨ Before x y := (List.mem_cons.1 hy).imp_right
      ((List.pairwise_cons.1 (List.pairwise_append.1 hsorted).2.1).1 y)
    exfalso
    unfold Before at hyx hxy
    rcases hxy with rfl | hxy <;> omega

lemma mem_of_lt_row {row' col' : Nat} (h : cells len = xs ++ (row, col) :: ys) (hlt : row' < row)
    (hc : Contains len row' col') : (row', col') ∈ xs :=
  mem_of_before h (mem_cells.2 hc) (.inl hlt)

end Prefix

/-! ### Offsets -/

lemma length_flatMap_above (len row : Nat) :
    ((List.range row).flatMap fun r => (List.range (len - r)).map (r, ·)).length =
      above len row := by
  simp [List.length_flatMap, above]

lemma getElem?_cells (h : Contains len row col) :
    (cells len)[above len row + col]? = some (row, col) := by
  obtain ⟨hrow, hcol⟩ := h
  obtain ⟨k, rfl⟩ : ∃ k, len = row + (k + 1) := ⟨len - row - 1, by omega⟩
  rw [cells, List.range_add, List.flatMap_append,
    List.getElem?_append_right (by rw [length_flatMap_above]; omega), length_flatMap_above,
    Nat.add_sub_cancel_left, List.range_succ_eq_map, List.map_cons, List.flatMap_cons,
    List.getElem?_append_left (by simpa using hcol)]
  have hcol : col < k + 1 := by omega
  simp [hcol]

lemma length_cells (len : Nat) : (cells len).length = len * (len + 1) / 2 := by
  have habove := above_add (Nat.le_refl len)
  have hsucc := triangle_succ len
  have hmul : len * (len + 1) = len * len + len := Nat.mul_succ len len
  rw [Nat.mul_comm] at hsucc
  rw [cells, length_flatMap_above]
  have heven : 2 ∣ len * (len - 1) := (Nat.even_mul_pred_self len).two_dvd
  have hsub : len * (len - 1) + len = len * len := by
    rcases len with _ | n
    · rfl
    · rw [Nat.add_sub_cancel, Nat.mul_succ]
  omega

lemma offset_lt (h : Contains len row col) : above len row + col < (cells len).length :=
  (List.getElem?_eq_some_iff.1 (getElem?_cells h)).1

/-- The position of a cell is its offset: no cell stands twice. -/
lemma offset_of_getElem? {i : Nat} (h : (cells len)[i]? = some (row, col)) :
    above len row + col = i := by
  have hc : Contains len row col := mem_cells.1 (List.mem_of_getElem? h)
  exact (List.getElem?_inj (offset_lt hc) (nodup_cells len)).1 ((getElem?_cells hc).trans h.symm)

/-- Of a cell among the first ones, the offset is the position there. -/
lemma getElem?_of_prefix {xs ys : List (Nat × Nat)} (h : cells len = xs ++ ys)
    (hmem : (row, col) ∈ xs) : xs[above len row + col]? = some (row, col) := by
  obtain ⟨i, hlt, hi⟩ := List.mem_iff_getElem.1 hmem
  have hget : xs[i]? = some (row, col) := by rw [List.getElem?_eq_getElem hlt, hi]
  have heq : above len row + col = i :=
    offset_of_getElem? (by rw [h, List.getElem?_append_left hlt, hget])
  rw [heq, hget]

/-- An array that grows along a list has the old values and the new one at the end. -/
lemma getElem?_push_concat {β γ : Type} {xs : List β} {x y : β} {a : Array γ} {v : γ} {i : Nat}
    (hsize : a.size = xs.length) (h : (xs ++ [x])[i]? = some y) :
    xs[i]? = some y ∧ (a.push v)[i]? = a[i]? ∨ x = y ∧ (a.push v)[i]? = some v := by
  rw [Array.getElem?_push, hsize]
  rcases Nat.lt_or_ge i xs.length with hlt | hge
  · rw [List.getElem?_append_left hlt] at h
    exact .inl ⟨h, if_neg (Nat.ne_of_lt hlt)⟩
  · have hlt := (List.getElem?_eq_some_iff.1 h).1
    rw [List.length_append, List.length_singleton] at hlt
    obtain rfl : i = xs.length := by omega
    rw [List.getElem?_concat_length] at h
    exact .inr ⟨Option.some.inj h, if_pos rfl⟩

/-- The position of a cell is its offset, if the number of pairs of positions is a size. -/
lemma offset_eq (h : Contains len row col) (hmax : len * len ≤ Size.max) :
    offset len row col = .ok (above len row + col) := by
  obtain ⟨hrow, hcol⟩ := h
  have hadd := above_add (Nat.le_of_lt hrow)
  have h₁ : row * len ≤ len * len := Nat.mul_le_mul_right len (by omega)
  have h₂ : row * (row - 1) ≤ row * len := Nat.mul_le_mul_left row (by omega)
  have h₃ : (row + 1) * len ≤ len * len := Nat.mul_le_mul_right len (by omega)
  rw [Nat.succ_mul] at h₃
  rw [offset, if_pos ⟨hrow, hcol⟩, Size.mul_of_le (by omega), Size.mul_of_le (by omega)]
  have hsub : row * len - row * (row - 1) / 2 = above len row := by omega
  change (do let first ← Size.sub (row * len) (row * (row - 1) / 2); Size.add first col) = _
  rw [Size.sub_of_le (by omega), hsub]
  exact Size.add_of_le (by omega)

lemma length_lt_of_mul_self_le (hmax : len * len ≤ Size.max) : len < 0x100000000 := by
  by_contra hge
  have hle := Nat.mul_le_mul (Nat.le_of_not_lt hge) (Nat.le_of_not_lt hge)
  exact absurd (hle.trans hmax) (by decide)

lemma size_eq_ok {k : Nat} :
    size len = .ok k ↔ len * (len + 1) ≤ Size.max ∧ k = (cells len).length := by
  have hle : len * (len + 1) ≤ Size.max → len + 1 ≤ Size.max := by
    rcases len with _ | n
    · exact fun _ => by decide
    · exact fun h => Nat.le_trans (Nat.le_mul_of_pos_left _ n.succ_pos) h
  by_cases hmax : len * (len + 1) ≤ Size.max
  · have hsize : size len = .ok (len * (len + 1) / 2) := by
      rw [size, Size.add_of_le (hle hmax)]
      change (do let square ← Size.mul len (len + 1); pure (square / 2)) = _
      rw [Size.mul_of_le hmax]
      rfl
    rw [hsize, length_cells]
    simp [hmax, eq_comm]
  · simp only [hmax, false_and, iff_false]
    intro h
    unfold size Size.add Size.mul at h
    split at h
    · simp [hmax, bind, Except.bind] at h
    · cases h

lemma parts_eq {after : Nat} (h₁ : 1 ≤ after) (h₂ : after ≤ row) (hc : Contains len row col)
    (hmax : len ≤ Size.max) :
    parts row col after = .ok ((after - 1, col), (row - after, col + after)) := by
  have := hc.1
  have := hc.2
  rw [parts, Size.sub_of_le h₁, Size.sub_of_le h₂, Size.add_of_le (by omega)]
  rfl

lemma contains_left {after : Nat} (h₁ : 1 ≤ after) (h₂ : after ≤ row)
    (hc : Contains len row col) : Contains len (after - 1) col := by
  have := hc.1
  have := hc.2
  constructor <;> omega

lemma contains_right {after : Nat} (h₁ : 1 ≤ after) (h₂ : after ≤ row)
    (hc : Contains len row col) : Contains len (row - after) (col + after) := by
  have := hc.1
  have := hc.2
  constructor <;> omega

end Chomsky.Triangle
