import Mathlib.Data.Set.Function
import Chomsky.Proofs.Chart.Fill
import Chomsky.Proofs.Forest.Count
import Chomsky.Proofs.Grammar.Reachable
import Chomsky.Theory.Chart

/-!
The layout of the triangle is that of the two loops which fill it. The offset of a cell is the
number of cells before it, both loops put the value of a cell there, and for that they look only at
the two parts of a span, which are shorter and so lie before it.
-/

namespace Chomsky

variable {α γ : Type} {len row col : Nat} {x y : Nat × Nat}

namespace Size

variable {m n k : Nat}

lemma add_eq_ok : add m n = .ok k ↔ m + n ≤ max ∧ m + n = k := by
  unfold add
  split <;> simp [*]

lemma sub_eq_ok : sub m n = .ok k ↔ n ≤ m ∧ m - n = k := by
  unfold sub
  split <;> simp [*]

end Size

namespace Triangle

/-! ### Places -/

lemma place_eq (h : row ≤ len) : place len (row, col) = above len row + col := by
  have hadd := above_add h
  simp only [place]
  omega

lemma offset_eq_place (h : Contains len row col) (hmax : len * len ≤ Size.max) :
    offset len row col = .ok (place len (row, col)) := by
  rw [offset_eq h hmax, place_eq h.1.le]

lemma getElem?_place (h : Contains len x.1 x.2) : (cells len)[place len x]? = some x := by
  rw [place_eq h.1.le]
  exact getElem?_cells h

/-- Only the cell itself stands at its place. -/
lemma place_of_getElem? {k : Nat} (h : (cells len)[k]? = some x) : place len x = k := by
  have hc : Contains len x.1 x.2 := mem_cells.1 (List.mem_of_getElem? h)
  rw [place_eq hc.1.le]
  exact offset_of_getElem? h

lemma place_of_split {before after : List (Nat × Nat)} (h : cells len = before ++ x :: after) :
    place len x = before.length := place_of_getElem? (by simp [h])

lemma bijOn_place (len : Nat) :
    Set.BijOn (place len) {x | Contains len x.1 x.2} {k | k < len * (len + 1) / 2} := by
  rw [← length_cells]
  refine ⟨fun x hx => ?_, fun x hx y hy hxy => ?_, fun k hk => ?_⟩
  · exact (List.getElem?_eq_some_iff.1 (getElem?_place hx)).1
  · have hget := getElem?_place hx
    rw [hxy, getElem?_place hy] at hget
    exact (Option.some.inj hget).symm
  · have hget := List.getElem?_eq_getElem hk
    exact ⟨_, mem_cells.1 (List.mem_of_getElem? hget), place_of_getElem? hget⟩

lemma before_of_place_lt (hx : Contains len x.1 x.2) (hy : Contains len y.1 y.2)
    (h : place len x < place len y) : Before x y := by
  obtain ⟨hlt, hgetx⟩ := List.getElem?_eq_some_iff.1 (getElem?_place hx)
  obtain ⟨hlt', hgety⟩ := List.getElem?_eq_some_iff.1 (getElem?_place hy)
  have hbefore := List.pairwise_iff_getElem.1 (pairwise_cells len) _ _ hlt hlt' h
  rwa [hgetx, hgety] at hbefore

/-- Places go up in the order of the cells. -/
lemma place_lt_iff (hx : Contains len x.1 x.2) (hy : Contains len y.1 y.2) :
    place len x < place len y ↔ Before x y := by
  refine ⟨before_of_place_lt hx hy, fun h => ?_⟩
  rcases Nat.lt_trichotomy (place len x) (place len y) with hlt | heq | hgt
  · exact hlt
  · obtain rfl := (bijOn_place len).injOn hx hy heq
    unfold Before at h
    omega
  · have hyx := before_of_place_lt hy hx hgt
    unfold Before at h hyx
    omega

lemma parts_eq_ok {after : Nat} {l r : Nat × Nat} (h : parts row col after = .ok (l, r)) :
    (1 ≤ after ∧ after ≤ row) ∧ l = (after - 1, col) ∧ r = (row - after, col + after) := by
  simp only [parts, except_bind_eq_ok, Size.sub_eq_ok, Size.add_eq_ok] at h
  obtain ⟨-, ⟨h₁, rfl⟩, -, ⟨h₂, rfl⟩, -, ⟨-, rfl⟩, h⟩ := h
  obtain ⟨rfl, rfl⟩ := Prod.mk.inj (Except.ok.inj h)
  exact ⟨⟨h₁, h₂⟩, rfl, rfl⟩

/-- If the number of pairs of positions is a size, the cells can be counted. -/
lemma mul_succ_le_of_mul_self_le (hmax : len * len ≤ Size.max) : len * (len + 1) ≤ Size.max := by
  have hlt := length_lt_of_mul_self_le hmax
  calc len * (len + 1) ≤ 0xFFFFFFFF * 0x100000000 := Nat.mul_le_mul (by omega) hlt
    _ ≤ Size.max := by decide

/-- Both parts of a span lie before it. -/
lemma place_parts {after : Nat} {l r : Nat × Nat} (hc : Contains len row col)
    (h : parts row col after = .ok (l, r)) :
    (Contains len l.1 l.2 ∧ place len l < place len (row, col)) ∧
      Contains len r.1 r.2 ∧ place len r < place len (row, col) := by
  obtain ⟨⟨h₁, h₂⟩, rfl, rfl⟩ := parts_eq_ok h
  have hl := contains_left h₁ h₂ hc
  have hr := contains_right h₁ h₂ hc
  exact ⟨⟨hl, (place_lt_iff hl hc).2 (.inl (by simp only; omega))⟩,
    hr, (place_lt_iff hr hc).2 (.inl (by simp only; omega))⟩

/-! ### Loops that lay out -/

/-- A loop that puts one value at the end for each element makes its array that much longer. -/
lemma size_of_pushes {β : Type} {step : Array γ → β → Except Fault (Array γ)}
    (hpush : ∀ a x a', step a x = .ok a' → ∃ v, a' = a.push v) {xs : List β} {a a' : Array γ}
    (h : xs.foldlM step a = .ok a') : a'.size = a.size + xs.length := by
  induction xs generalizing a with
  | nil =>
    obtain rfl : a = a' := Except.ok.inj h
    rfl
  | cons x xs ih =>
    rw [List.foldlM_cons, except_bind_eq_ok] at h
    obtain ⟨a₁, h₁, h⟩ := h
    obtain ⟨v, rfl⟩ := hpush a x a₁ h₁
    rw [ih h, Array.size_push, List.length_cons]
    omega

lemma map_push_back? (v : Except Fault γ) (a : Array γ) :
    (v.map a.push).map Array.back? = v.map some := by
  cases v <;> simp [Except.map]

/-- A body that puts at the end what it makes of smaller places alone lays out. -/
lemma LaysOut.of_push {step : Array γ → Nat × Nat → Except Fault (Array γ)}
    (value : Array γ → Nat × Nat → Except Fault γ)
    (hpush : ∀ a x, step a x = (value a x).map a.push)
    (hreads : ∀ x a b, Contains len x.1 x.2 → (∀ k < place len x, a[k]? = b[k]?) →
      value a x = value b x) : LaysOut len step := by
  have hone : ∀ a x a', step a x = .ok a' → ∃ v, a' = a.push v := fun a x a' h => by
    rw [hpush, except_map_eq_ok] at h
    obtain ⟨v, -, rfl⟩ := h
    exact ⟨v, rfl⟩
  refine ⟨hone, fun before x after a hcells h => ?_, fun x a b hc h => ?_⟩
  · rw [place_of_split hcells, size_of_pushes hone h]
    exact Nat.zero_add _
  · rw [hpush, hpush, map_push_back?, map_push_back?, hreads x a b hc h]

end Triangle

/-! ### The chart -/

namespace Chart

variable {c : NormalGrammar α} {input : List (Option Nat)} {cells cells' : Array BitSet}

lemma cellAt_congr (hmax : len * len ≤ Size.max) (hc : Triangle.Contains len row col)
    (h : cells[Triangle.place len (row, col)]? = cells'[Triangle.place len (row, col)]?) :
    cellAt len cells row col = cellAt len cells' row col := by
  rw [cellAt, cellAt, Triangle.offset_eq_place hc hmax, except_ok_bind, except_ok_bind, h]

/-- A split looks only at the two cells of its parts. -/
lemma placeSplit_congr (hmax : len * len ≤ Size.max) (hc : Triangle.Contains len row col)
    (h : ∀ k < Triangle.place len (row, col), cells[k]? = cells'[k]?) :
    placeSplit c len cells row col = placeSplit c len cells' row col := by
  funext s after
  refine Trail.bind_congr fun ⟨l, r⟩ hparts => ?_
  obtain ⟨⟨hl, hltl⟩, hr, hltr⟩ := Triangle.place_parts hc hparts
  simp only [cellAt_congr hmax hl (h _ hltl), cellAt_congr hmax hr (h _ hltr)]

lemma splitCell_congr (hmax : len * len ≤ Size.max) (hc : Triangle.Contains len row col)
    (h : ∀ k < Triangle.place len (row, col), cells[k]? = cells'[k]?) :
    splitCell c len cells row col = splitCell c len cells' row col := by
  rw [splitCell, splitCell, placeSplit_congr hmax hc h]

/-- Filling puts the cell of each span at its place. -/
lemma fillCell_laysOut (hmax : input.length * input.length ≤ Size.max) :
    Triangle.LaysOut input.length fun cells x => (fillCell c input cells x).result := by
  refine .of_push (fun cells x => (if x.1 = 0 then terminalCell c x.2 input[x.2]?.join
    else splitCell c input.length cells x.1 x.2).result) (fun cells x => ?_) fun x a b hc h => ?_
  · rw [fillCell_eq, Trail.result_bind]
    rfl
  · simp only [splitCell_congr hmax hc h]

/-- The cells of a chart are what that loop leaves. -/
lemma foldlM_of_fillAll {t : Chart} (h : (fillAll c input).result = .ok t) :
    (Triangle.cells input.length).foldlM (fun cells x => (fillCell c input cells x).result) #[] =
      .ok t.cells := by
  simp only [fillAll, Trail.bind_eq_ok] at h
  obtain ⟨roots, -, size, -, cells, hcells, h⟩ := h
  obtain rfl := Except.ok.inj h
  rwa [Trail.result_foldlM] at hcells

end Chart

/-! ### The counts -/

namespace Forest

variable {f f' : Forest} {counts counts' : Counts}

lemma countAt_congr {symbol : Nat} (hmax : len * len ≤ Size.max)
    (hc : Triangle.Contains len row col) (hf : f.len = len) (hf' : f'.len = len)
    (hcell : f.cells[Triangle.place len (row, col)]? = f'.cells[Triangle.place len (row, col)]?)
    (hcount : counts[Triangle.place len (row, col)]? = counts'[Triangle.place len (row, col)]?) :
    f.countAt counts row col symbol = f'.countAt counts' row col symbol := by
  rw [countAt, countAt, hf, hf', Triangle.offset_eq_place hc hmax]
  simp only [except_ok_bind, hcell, hcount]

/-- Counting by reasons looks only at the two parts of each. -/
lemma countPointers_congr (hmax : len * len ≤ Size.max) (hc : Triangle.Contains len row col)
    (hf : f.len = len) (hf' : f'.len = len)
    (h : ∀ k < Triangle.place len (row, col),
      f.cells[k]? = f'.cells[k]? ∧ counts[k]? = counts'[k]?) :
    f.countPointers counts row col = f'.countPointers counts' row col := by
  have hone : f.countPointer counts row col = f'.countPointer counts' row col := by
    funext ptr
    cases ptr with
    | terminal t => rfl
    | split after left right =>
      cases hparts : Triangle.parts row col after with
      | error e => simp only [countPointer, hparts, bind, Except.bind]
      | ok p =>
        obtain ⟨⟨hl, hltl⟩, hr, hltr⟩ := Triangle.place_parts hc hparts
        obtain ⟨hcelll, hcountl⟩ := h _ hltl
        obtain ⟨hcellr, hcountr⟩ := h _ hltr
        simp only [countPointer, hparts, except_ok_bind,
          countAt_congr hmax hl hf hf' hcelll hcountl, countAt_congr hmax hr hf hf' hcellr hcountr]
  funext ps
  rw [countPointers, countPointers, hone]

lemma countCell_laysOut (hmax : f.len * f.len ≤ Size.max) : Triangle.LaysOut f.len f.countCell := by
  refine .of_push (fun counts x => do
    let cell ← f.cellAt x.1 x.2
    cell.mapM fun s => f.countPointers counts x.1 x.2 s.2) (fun counts x => ?_) fun x a b hc h => ?_
  · rw [countCell]
    cases f.cellAt x.1 x.2 with
    | error e => rfl
    | ok cell =>
      rw [except_ok_bind, except_ok_bind]
      cases cell.mapM fun s => f.countPointers counts x.1 x.2 s.2 <;> rfl
  · simp only [countPointers_congr hmax hc rfl rfl fun k hk => ⟨rfl, h k hk⟩]

/-- The counts of all cells are there when the roots are counted. -/
lemma counts_of_count {n : Nat} (h : f.count = .ok n) (hf : f.isEmpty = false) :
    ∃ counts, (Triangle.cells f.len).foldlM f.countCell #[] = .ok counts := by
  rw [Forest.count, hf, if_neg Bool.false_ne_true] at h
  split at h
  · cases h
  · obtain ⟨counts, hcounts, -⟩ := except_bind_eq_ok.1 h
    exact ⟨counts, hcounts⟩

end Forest

/-! ### The layout in full -/

/-- **The layout of the triangle is exact.** The offsets of the cells are the numbers below the
number of cells, each once and row by row, and nothing underflows on the way to them. Filling a
chart and counting the trees of a forest put what they make of a cell where its offset says, and
look only at cells before it: at the parts of a span, which have smaller offsets, and when trees
are counted at the cell itself for the reasons `ps` it gives. Filling goes through, and ends with a
chart unless there are more entries than the counter of entries has numbers. -/
theorem Triangle.offset_layout (hmax : len * len ≤ Size.max) :
    (∀ row col, Contains len row col → row * (row - 1) / 2 ≤ row * len ∧
        offset len row col = .ok (place len (row, col))) ∧
      Set.BijOn (place len) {x | Contains len x.1 x.2} {k | k < len * (len + 1) / 2} ∧
      (∀ x y, Contains len x.1 x.2 → Contains len y.1 y.2 →
        (place len x < place len y ↔ Before x y)) ∧
      (∀ row col after l r, Contains len row col → parts row col after = .ok (l, r) →
        (Contains len l.1 l.2 ∧ place len l < place len (row, col)) ∧
          Contains len r.1 r.2 ∧ place len r < place len (row, col)) ∧
      (∀ (c : NormalGrammar α) (input : List (Option Nat)), input.length = len →
        LaysOut len (fun cells x => (Chart.fillCell c input cells x).result) ∧
          (∀ t, (Chart.fill c input).result = .ok t → (Chart.fillAll c input).result = .ok t) ∧
          (∀ t, (Chart.fillAll c input).result = .ok t → (cells len).foldlM
            (fun cells x => (Chart.fillCell c input cells x).result) #[] = .ok t.cells) ∧
          (c.WellFormed → (∃ t, (Chart.fillAll c input).result = .ok t) ∧
            ((∃ t, (Chart.fill c input).result = .ok t) ↔
              (Search.entries c input).length ≤ Chart.maxEntries))) ∧
      ∀ f : Forest, f.len = len → LaysOut len f.countCell ∧
        (∀ n, f.count = .ok n → f.isEmpty = false →
          ∃ counts, (cells len).foldlM f.countCell #[] = .ok counts) ∧
        ∀ (f' : Forest) (counts counts' : Forest.Counts) (row col : Nat), f'.len = len →
          Contains len row col → (∀ k < place len (row, col),
            f.cells[k]? = f'.cells[k]? ∧ counts[k]? = counts'[k]?) →
          ∀ ps, f.countPointers counts row col ps = f'.countPointers counts' row col ps := by
  refine ⟨fun row col h => ⟨?_, offset_eq_place h hmax⟩, bijOn_place len,
    fun x y hx hy => place_lt_iff hx hy, fun row col after l r => place_parts, ?_, ?_⟩
  · have hadd := above_add h.1.le
    omega
  · rintro c input rfl
    refine ⟨Chart.fillCell_laysOut hmax, fun t ht => (Trail.counted_eq_ok.1 ht).1,
      fun t => Chart.foldlM_of_fillAll, fun hc => ?_⟩
    have hcells := mul_succ_le_of_mul_self_le hmax
    exact ⟨(Chart.fillAll_eq_ok hc).2 hcells,
      (Chart.fill_eq_ok hc).trans ⟨Chart.Countable.entries, fun h => ⟨hcells, h⟩⟩⟩
  · rintro f rfl
    refine ⟨Forest.countCell_laysOut hmax, fun n => Forest.counts_of_count, ?_⟩
    exact fun f' counts counts' row col hf' hc h ps =>
      congrFun (Forest.countPointers_congr hmax hc rfl hf' h) ps

/-- The cell `(1, 1)` of a word of three positions is the fifth one, and filling has come to it
after four. -/
theorem Triangle.offset_layout_three : 3 * 3 ≤ Size.max ∧ offset 3 1 1 = .ok 4 ∧
    cells 3 = [(0, 0), (0, 1), (0, 2), (1, 0)] ++ (1, 1) :: [(2, 0)] ∧
    ∃ a, [(0, 0), (0, 1), (0, 2), (1, 0)].foldlM (fun cells x => (Chart.fillCell
      Grammar.alternatingSnapshot [some 1, some 1, some 1] cells x).result) #[] = .ok a ∧
        a.size = place 3 (1, 1) := by
  have hmax : 3 * 3 ≤ Size.max := by decide
  obtain ⟨hoffset, -, -, -, hfill, -⟩ := offset_layout (α := String) hmax
  obtain ⟨hlays, -⟩ := hfill Grammar.alternatingSnapshot [some 1, some 1, some 1] rfl
  obtain ⟨a, ha⟩ : ∃ a, [(0, 0), (0, 1), (0, 2), (1, 0)].foldlM (fun cells x => (Chart.fillCell
      Grammar.alternatingSnapshot [some 1, some 1, some 1] cells x).result) #[] = .ok a := ⟨_, rfl⟩
  exact ⟨hmax, (hoffset 1 1 (by decide)).2, rfl, a, ha, hlays.turn _ _ _ _ rfl ha⟩

end Chomsky
