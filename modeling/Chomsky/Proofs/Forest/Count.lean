import Chomsky.Forest
import Chomsky.Proofs.Forest.Enumerate

/-!
Counting the trees of a forest gives the length of the list of all trees, up to the greatest size.
Saturated sums and products of saturated counts are the saturated sums and products.
-/

namespace Chomsky

namespace Size

/-- A count that stays at the end of the range. -/
def cap (n : Nat) : Nat := min n max

lemma satAdd_cap (m n : Nat) : satAdd (cap m) (cap n) = cap (m + n) := by
  unfold satAdd cap
  omega

lemma satMul_cap (m n : Nat) : satMul (cap m) (cap n) = cap (m * n) := by
  have hpos : 1 ≤ max := by decide
  unfold satMul cap
  rcases Nat.le_total m max with hm | hm <;> rcases Nat.le_total n max with hn | hn
  · rw [Nat.min_eq_left hm, Nat.min_eq_left hn]
  · rw [Nat.min_eq_left hm, Nat.min_eq_right hn]
    rcases Nat.eq_zero_or_pos m with rfl | hm'
    · simp
    · have h₁ := Nat.le_mul_of_pos_left max hm'
      have h₂ := Nat.le_mul_of_pos_left n hm'
      rw [Nat.min_eq_right h₁, Nat.min_eq_right (hn.trans h₂)]
  · rw [Nat.min_eq_right hm, Nat.min_eq_left hn]
    rcases Nat.eq_zero_or_pos n with rfl | hn'
    · simp
    · have h₁ := Nat.le_mul_of_pos_right max hn'
      have h₂ := Nat.le_mul_of_pos_right m hn'
      rw [Nat.min_eq_right h₁, Nat.min_eq_right (hm.trans h₂)]
  · have h₁ := Nat.le_mul_of_pos_left max hpos
    have h₂ := Nat.mul_le_mul hm hn
    rw [Nat.min_eq_right hm, Nat.min_eq_right hn, Nat.min_eq_right h₁,
      Nat.min_eq_right (h₁.trans h₂)]

end Size

namespace Forest

open Search (atSpan entries)

variable {α : Type} {c : NormalGrammar α} {input : List (Option Nat)} {row col p : Nat}
  {f : Forest} {counts : Counts} {spans rest : List (Nat × Nat)}

lemma get?_of_mem {κ υ : Type} [DecidableEq κ] {m : List (κ × υ)} (h : (m.map (·.1)).Nodup)
    {k : κ} {v : υ} (hmem : (k, v) ∈ m) : OrderedMap.get? m k = some v := by
  induction m with
  | nil => exact absurd hmem List.not_mem_nil
  | cons x m ih =>
    obtain ⟨hx, hm⟩ := List.nodup_cons.1 h
    unfold OrderedMap.get? at ih ⊢
    rcases List.mem_cons.1 hmem with rfl | hmem
    · simp
    · have hne : x.1 ≠ k := by
        rintro rfl
        exact hx (List.mem_map.2 ⟨_, hmem, rfl⟩)
      rw [List.find?_cons_of_neg (by simpa using hne)]
      exact ih hm hmem

lemma pointers_of_mem_cellOf {es : List Entry} {x : Nat × List Pointer} (h : x ∈ cellOf es) :
    x.2 = pointersOf es x.1 := by
  rw [← get?_cellOf, get?_of_mem (keys_cellOf es).1 h]
  rfl

/-- The number of trees of a symbol over a span, saturated. -/
def treeCount (f : Forest) (row col p : Nat) : Nat := Size.cap (f.allTreesAt row col p).length

/-- The counts of a span, in the order of the symbols in its cell. -/
def cellCounts (c : NormalGrammar α) (input : List (Option Nat)) (f : Forest) (row col : Nat) :
    List Nat :=
  (cellOf (atSpan (entries c input) row col)).map fun x => f.treeCount row col x.1

/-- The counts of the spans gone through. -/
structure Counted (c : NormalGrammar α) (input : List (Option Nat)) (f : Forest)
    (spans : List (Nat × Nat)) (counts : Counts) : Prop where
  size : counts.size = spans.length
  cell : ∀ (i : Nat) (row col : Nat), spans[i]? = some (row, col) →
    counts[i]? = some (cellCounts c input f row col)

variable (hf : Holds c input f) (hc : c.WellFormed) (ha : Accepted c input)

include hf ha

omit hc in
lemma Holds.cellAt (h : Triangle.Contains input.length row col) :
    f.cellAt row col = .ok (cellOf (atSpan (entries c input) row col)) := by
  obtain ⟨len, cells, roots⟩ := f
  obtain rfl : len = input.length := hf.len
  exact cellAt_of_groups (hf.groups ha) hf.len_le h

include hc

lemma Counted.countAt (hcounted : Counted c input f spans counts)
    (hspans : Triangle.cells input.length = spans ++ rest) (hmem : (row, col) ∈ spans) :
    f.countAt counts row col p = .ok (f.treeCount row col p) := by
  have h : Triangle.Contains input.length row col :=
    Triangle.mem_cells.1 (hspans ▸ List.mem_append_left rest hmem)
  have hcounts := hcounted.cell _ row col (Triangle.getElem?_of_prefix hspans hmem)
  have hcell := (hf.groups ha).cell row col h
  rw [Forest.countAt, hf.len, Triangle.offset_eq h hf.len_le, except_ok_bind, hcell]
  simp only [required, except_ok_bind, hcounts]
  split
  · next hnone =>
    have hnil : reasonsIn c input row col p = [] := by
      rw [List.findIdx?_eq_none_iff] at hnone
      refine List.map_eq_nil_iff.2 (List.filter_eq_nil_iff.2 fun e he hp => ?_)
      obtain ⟨x, hx, hkey⟩ := List.mem_map.1 (((keys_cellOf _).2 p).2 ⟨e, he, by simpa using hp⟩)
      have := hnone x hx
      simp [hkey] at this
    rw [treeCount, hf.allTreesAt hc ha h, hnil]
    rfl
  · next k hk =>
    obtain ⟨hlt, hkey, -⟩ := List.findIdx?_eq_some_iff_getElem.1 hk
    rw [cellCounts, List.getElem?_map, List.getElem?_eq_getElem hlt]
    simp only [decide_eq_true_eq] at hkey
    rw [Option.map_some, hkey]

lemma countPointers_spec (hcounted : Counted c input f spans counts)
    (hspans : Triangle.cells input.length = spans ++ (row, col) :: rest) :
    f.countPointers counts row col (reasonsIn c input row col p) =
      .ok (f.treeCount row col p) := by
  have h : Triangle.Contains input.length row col :=
    Triangle.mem_cells.1 (hspans ▸ List.mem_append_right spans List.mem_cons_self)
  have hlen := hf.length_le ha
  have hone : ∀ ptr ∈ reasonsIn c input row col p, f.countPointer counts row col ptr =
      .ok (Size.cap (f.treesBy row col p ptr).length) := by
    intro ptr hptr
    obtain ⟨x, -, -, -, rfl⟩ | ⟨k, l, r, h₁, h₂, -, -, -, rfl⟩ := (mem_reasonsIn hc h).1 hptr
    · rfl
    · have hl := Triangle.contains_left h₁ h₂ h
      have hr := Triangle.contains_right h₁ h₂ h
      rw [countPointer, Triangle.parts_eq h₁ h₂ h hlen]
      simp only [except_ok_bind]
      rw [hcounted.countAt hf hc ha hspans (Triangle.mem_of_lt_row hspans (by omega) hl),
        hcounted.countAt hf hc ha hspans (Triangle.mem_of_lt_row hspans (by omega) hr),
        except_ok_bind, except_ok_bind, treeCount, treeCount, Size.satMul_cap]
      simp [treesBy, List.length_flatMap, pure, Except.pure]
  have hsum : ∀ (ptrs : List Pointer) (n : Nat), (∀ ptr ∈ ptrs, ptr ∈ reasonsIn c input row col p) →
      ptrs.foldlM (fun n ptr => do
        let m ← f.countPointer counts row col ptr
        pure (Size.satAdd n m)) (Size.cap n) =
          .ok (Size.cap (n + (ptrs.flatMap (f.treesBy row col p)).length)) := by
    intro ptrs
    induction ptrs with
    | nil => exact fun n _ => rfl
    | cons ptr ptrs ih =>
      intro n hptrs
      rw [List.foldlM_cons, hone ptr (hptrs ptr List.mem_cons_self), except_ok_bind,
        Size.satAdd_cap]
      refine (ih _ fun q hq => hptrs q (List.mem_cons_of_mem ptr hq)).trans ?_
      rw [List.flatMap_cons, List.length_append, Nat.add_assoc]
  refine (hsum _ 0 fun _ hptr => hptr).trans ?_
  rw [Nat.zero_add, treeCount, hf.allTreesAt hc ha h]

lemma countCell_spec {span : Nat × Nat} (hcounted : Counted c input f spans counts)
    (hspans : Triangle.cells input.length = spans ++ span :: rest) : ∃ counts',
    f.countCell counts span = .ok counts' ∧ Counted c input f (spans ++ [span]) counts' := by
  obtain ⟨row, col⟩ := span
  have h : Triangle.Contains input.length row col :=
    Triangle.mem_cells.1 (hspans ▸ List.mem_append_right spans List.mem_cons_self)
  have hcells : (cellOf (atSpan (entries c input) row col)).mapM
      (fun s => f.countPointers counts row col s.2) =
        .ok (cellCounts c input f row col) :=
    except_mapM_eq_ok_map fun x hx => by
      rw [pointers_of_mem_cellOf hx]
      exact countPointers_spec hf hc ha hcounted hspans
  refine ⟨counts.push (cellCounts c input f row col), ?_, by simp [hcounted.size],
    fun i row' col' hi => ?_⟩
  · rw [countCell, hf.cellAt ha h, except_ok_bind, hcells, except_ok_bind]
    rfl
  · obtain ⟨hi, hpush⟩ | ⟨hspan, hpush⟩ := Triangle.getElem?_push_concat
      (v := cellCounts c input f row col) hcounted.size hi
    · exact hpush.trans (hcounted.cell i row' col' hi)
    · obtain ⟨rfl, rfl⟩ := Prod.mk.inj hspan
      exact hpush

lemma countCells_spec (spans rest : List (Nat × Nat))
    (hcounted : Counted c input f spans counts)
    (hspans : Triangle.cells input.length = spans ++ rest) : ∃ counts',
    rest.foldlM f.countCell counts = .ok counts' ∧
      Counted c input f (Triangle.cells input.length) counts' := by
  induction rest generalizing spans counts with
  | nil => exact ⟨counts, rfl, by rwa [hspans, List.append_nil]⟩
  | cons span rest ih =>
    obtain ⟨counts₁, h₁, hcounted₁⟩ := countCell_spec hf hc ha hcounted hspans
    obtain ⟨counts₂, h₂, hcounted₂⟩ := ih (spans ++ [span]) hcounted₁
      (by rw [hspans, List.append_assoc]; rfl)
    exact ⟨counts₂, by rw [List.foldlM_cons, h₁, except_ok_bind, h₂], hcounted₂⟩

omit ha in
/-- **The count of a forest** is the number of its trees, saturated. -/
theorem Holds.count : f.count = .ok (Size.cap f.allTrees.length) := by
  unfold Forest.count
  by_cases ha : Accepted c input
  · have hcontains := contains_whole ha.1
    obtain ⟨counts, hcounts, hcounted⟩ := countCells_spec hf hc ha []
      (Triangle.cells input.length) ⟨(rfl : #[].size = 0), by simp⟩ rfl
    have hsize : ¬f.cells.size < f.len * (f.len + 1) / 2 := by
      rw [(hf.groups ha).size, hf.len, Triangle.length_cells]
      exact Nat.lt_irrefl _
    have hroots : f.isEmpty = false := by simp [isEmpty, hf.roots ha]
    have hpos : 1 ≤ input.length := List.length_pos_of_ne_nil ha.1
    rw [hroots, if_neg Bool.false_ne_true, if_neg hsize, hf.len, hcounts, except_ok_bind,
      Size.sub_of_le hpos, except_ok_bind, hf.roots ha, List.foldlM_cons,
      hcounted.countAt hf hc ha (List.append_nil _).symm (Triangle.mem_cells.2 hcontains),
      except_ok_bind, hf.allTrees_of_accepted ha, treeCount]
    have hzero := Size.satAdd_cap 0 (f.allTreesAt (input.length - 1) 0 c.start).length
    rw [Nat.zero_add] at hzero
    exact congrArg Except.ok hzero
  · rw [if_pos (by simp [isEmpty, hf.rejected ha]), allTrees, hf.rejected ha]
    rfl

end Forest

end Chomsky
