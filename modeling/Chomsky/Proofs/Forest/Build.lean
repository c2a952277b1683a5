import Chomsky.Forest
import Chomsky.Proofs.Chart.Correct
import Chomsky.Theory.Listing

/-!
The forest of a chart: each cell groups the entries of its span by symbol, and the only root is the
start symbol. The reasons for a symbol are then the pointers of its entries, in their order.
-/

namespace Chomsky.Forest

open Search (atSpan entries)

variable {α : Type} {c : NormalGrammar α} {input : List (Option Nat)} {len row col p : Nat}
  {es : List Entry} {f : Forest}

/-! ### Entries grouped by symbol -/

/-- Puts an entry into a cell, under its symbol. -/
def enter (cell : List (Nat × List Pointer)) (e : Entry) : List (Nat × List Pointer) :=
  OrderedMap.alter e.symbol (fun ps => ps.getD [] ++ [e.pointer]) cell

def cellOf (es : List Entry) : List (Nat × List Pointer) := es.foldl enter []

lemma cellOf_concat (es : List Entry) (e : Entry) : cellOf (es ++ [e]) = enter (cellOf es) e := by
  simp [cellOf]

/-- The pointers of the entries for a symbol. -/
def pointersOf (es : List Entry) (p : Nat) : List Pointer :=
  (es.filter (·.symbol = p)).map (·.pointer)

lemma get?_cellOf (es : List Entry) (p : Nat) :
    (OrderedMap.get? (cellOf es) p).getD [] = pointersOf es p := by
  induction es using List.reverseRecOn with
  | nil => rfl
  | append_singleton es e ih =>
    rw [cellOf_concat, enter, OrderedMap.get?_alter, pointersOf, List.filter_append,
      List.map_append, ← pointersOf, ← ih]
    by_cases h : e.symbol = p
    · subst h
      simp
    · simp [h]

lemma keys_alter {κ υ : Type} [DecidableEq κ] (k : κ) (g : Option υ → υ) (m : List (κ × υ)) :
    (OrderedMap.alter k g m).map (·.1) = OrderedSet.insert (m.map (·.1)) k := by
  induction m with
  | nil => rfl
  | cons x m ih =>
    obtain ⟨j, v⟩ := x
    unfold OrderedMap.alter OrderedSet.insert
    by_cases hj : j = k
    · simp [hj]
    · rw [if_neg hj, List.map_cons, ih, OrderedSet.insert]
      by_cases hk : k ∈ m.map (·.1)
      · simp [hk]
      · rw [if_neg hk, if_neg (by simpa [Ne.symm hj] using hk)]
        simp

/-- The symbols of a cell, each of them once. -/
lemma keys_cellOf (es : List Entry) : ((cellOf es).map (·.1)).Nodup ∧
    ∀ p, p ∈ (cellOf es).map (·.1) ↔ ∃ e ∈ es, e.symbol = p := by
  induction es using List.reverseRecOn with
  | nil => simp [cellOf]
  | append_singleton es e ih =>
    rw [cellOf_concat, enter, keys_alter]
    refine ⟨OrderedSet.nodup_insert ih.1 _, fun p => ?_⟩
    rw [OrderedSet.mem_insert, ih.2]
    constructor
    · rintro (⟨e', he', rfl⟩ | rfl)
      · exact ⟨e', by simp [he'], rfl⟩
      · exact ⟨e, by simp, rfl⟩
    · rintro ⟨e', he', rfl⟩
      rcases List.mem_append.1 he' with he' | he'
      · exact .inl ⟨e', he', rfl⟩
      · exact .inr (by rw [List.mem_singleton.1 he'])

/-! ### All cells -/

/-- Every span has its place in the array, with its entries grouped by symbol. -/
structure Groups (len : Nat) (es : List Entry)
    (cells : Array (List (Nat × List Pointer))) : Prop where
  size : cells.size = (Triangle.cells len).length
  cell : ∀ row col, Triangle.Contains len row col →
    cells[Triangle.above len row + col]? = some (cellOf (atSpan es row col))

/-- What stands in the array is the cell of a span. -/
lemma Groups.exists_span {cells : Array (List (Nat × List Pointer))} (hg : Groups len es cells)
    {cell : List (Nat × List Pointer)} (h : cell ∈ cells) :
    ∃ row col, Triangle.Contains len row col ∧ cell = cellOf (atSpan es row col) := by
  obtain ⟨i, hi, rfl⟩ := Array.mem_iff_getElem.1 h
  have hlt : i < (Triangle.cells len).length := hg.size ▸ hi
  obtain ⟨⟨row, col⟩, hspan⟩ : ∃ span, (Triangle.cells len)[i]? = some span :=
    ⟨_, List.getElem?_eq_getElem hlt⟩
  have hc : Triangle.Contains len row col := Triangle.mem_cells.1 (List.mem_of_getElem? hspan)
  have hcell := hg.cell row col hc
  rw [Triangle.offset_of_getElem? hspan, Array.getElem?_eq_getElem hi] at hcell
  exact ⟨row, col, hc, Option.some.inj hcell⟩

lemma addEntry_spec {cells : Array (List (Nat × List Pointer))} (hg : Groups len es cells)
    (hmax : len * len ≤ Size.max) {e : Entry} (he : Triangle.Contains len e.row e.col) :
    ∃ cells', addEntry len cells e = .ok cells' ∧ Groups len (es ++ [e]) cells' := by
  have hlt := Triangle.offset_lt he
  refine ⟨cells.modify (Triangle.above len e.row + e.col) (enter · e), ?_, by simp [hg.size],
    fun row col h => ?_⟩
  · rw [addEntry, Triangle.offset_eq he hmax, except_ok_bind, if_pos (by rw [hg.size]; exact hlt)]
    rfl
  · rw [Array.getElem?_modify, hg.cell row col h, Search.atSpan_append_entries]
    by_cases hspan : e.row = row ∧ e.col = col
    · obtain ⟨rfl, rfl⟩ := hspan
      simp [atSpan, cellOf_concat]
    · have hne : Triangle.above len e.row + e.col ≠ Triangle.above len row + col := by
        intro heq
        have h₁ := Triangle.getElem?_cells he
        rw [heq, Triangle.getElem?_cells h] at h₁
        have h₁ := Prod.mk.inj (Option.some.inj h₁)
        exact hspan ⟨h₁.1.symm, h₁.2.symm⟩
      rw [if_neg hne]
      simp [atSpan, hspan]

lemma addEntries_spec (hmax : len * len ≤ Size.max)
    (hes : ∀ e ∈ es, Triangle.Contains len e.row e.col) : ∃ cells,
    es.foldlM (addEntry len) (Array.replicate (Triangle.cells len).length []) = .ok cells ∧
      Groups len es cells := by
  induction es using List.reverseRecOn with
  | nil =>
    refine ⟨_, rfl, by simp, fun row col h => ?_⟩
    rw [Array.getElem?_replicate, if_pos (Triangle.offset_lt h)]
    rfl
  | append_singleton es e ih =>
    obtain ⟨cells, hcells, hg⟩ := ih fun e' he' => hes e' (by simp [he'])
    obtain ⟨cells', hcells', hg'⟩ := addEntry_spec hg hmax (hes e (by simp))
    refine ⟨cells', ?_, hg'⟩
    rw [List.foldlM_append, hcells, except_ok_bind, List.foldlM_cons, hcells']
    rfl

/-! ### The forest -/

/-- Choosing by a test that never breaks off. -/
lemma filterM_eq_ok {β : Type} {test : β → Except Fault Bool} {q : β → Bool} {xs : List β}
    (h : ∀ x ∈ xs, test x = .ok (q x)) : xs.filterM test = .ok (xs.filter q) := by
  have haux : ∀ (xs acc : List β), (∀ x ∈ xs, test x = .ok (q x)) →
      xs.filterAuxM test acc = .ok ((xs.filter q).reverse ++ acc) := by
    intro xs
    induction xs with
    | nil => exact fun acc _ => rfl
    | cons x xs ih =>
      intro acc h
      rw [List.filterAuxM, h x List.mem_cons_self, except_ok_bind,
        ih _ fun y hy => h y (List.mem_cons_of_mem x hy)]
      cases hx : q x <;> simp [hx]
  rw [List.filterM, haux xs [] h, except_ok_bind, List.append_nil, List.reverse_reverse]
  rfl

/-- The input has a tree from the start symbol. -/
def Accepted (c : NormalGrammar α) (input : List (Option Nat)) : Prop :=
  input ≠ [] ∧ ∃ t, c.Spans input (input.length - 1) 0 c.start t

/-- The forest of the entries of the plain search. -/
structure Holds (c : NormalGrammar α) (input : List (Option Nat)) (f : Forest) : Prop where
  len : f.len = input.length
  len_le : input.length * input.length ≤ Size.max
  roots : Accepted c input → f.roots = [c.start]
  groups : Accepted c input → Groups input.length (entries c input) f.cells
  rejected : ¬Accepted c input → f.roots = []
  bare : ¬Accepted c input → f.cells = #[]

lemma Holds.length_le (hf : Holds c input f) (ha : Accepted c input) :
    input.length ≤ Size.max :=
  (Nat.le_mul_of_pos_left _ (List.length_pos_of_ne_nil ha.1)).trans hf.len_le

lemma cellAt_of_groups {cells : Array (List (Nat × List Pointer))} {roots : List Nat}
    (hg : Groups len es cells) (hmax : len * len ≤ Size.max)
    (h : Triangle.Contains len row col) :
    (Forest.mk len cells roots).cellAt row col = .ok (cellOf (atSpan es row col)) := by
  rw [Forest.cellAt, Triangle.offset_eq h hmax, except_ok_bind, hg.cell row col h]
  rfl

lemma ofChart_spec (hc : c.WellFormed) {t : Chart} (ht : Chart.Matches c input t)
    (hmax : input.length * (input.length + 1) ≤ Size.max) :
    ∃ f, ofChart c t (entries c input) = .ok f ∧ Holds c input f := by
  have hle : input.length * input.length ≤ Size.max :=
    (Nat.mul_le_mul_left _ (Nat.le_succ _)).trans hmax
  obtain ⟨b, hb, haccepts⟩ := ht.accepts hc
  cases b with
  | false =>
    have hno : ¬Accepted c input := fun h => by simpa using haccepts.2 h
    exact ⟨⟨t.len, #[], []⟩, by rw [ofChart, hb]; rfl, ht.len, hle, fun h => absurd h hno,
      fun h => absurd h hno, fun _ => rfl, fun _ => rfl⟩
  | true =>
    have hyes : Accepted c input := haccepts.1 rfl
    obtain ⟨hne, u, hu⟩ := hyes
    have hcontains := contains_whole hne
    obtain ⟨cells, hcells, hg⟩ :=
      addEntries_spec hle fun e (he : e ∈ entries c input) => Search.contains_of_mem he
    obtain ⟨hnodup, hkeys⟩ := keys_cellOf (atSpan (entries c input) (input.length - 1) 0)
    generalize htop : (cellOf (atSpan (entries c input) (input.length - 1) 0)).map (·.1) = top
      at hnodup hkeys
    have hlt : ∀ p ∈ top, p < c.tags.size := fun p hp => by
      obtain ⟨e, he, rfl⟩ := (hkeys p).1 hp
      exact Search.symbol_lt hc (Search.mem_atSpan.1 he).1
    have hstart : c.start ∈ top := by
      obtain ⟨-, e, he⟩ := Search.mem_found.1 ((Search.mem_found_iff hc hcontains).2 ⟨u, hu⟩)
      exact (hkeys _).2 ⟨e, he⟩
    have hroots : top.filterM c.isRoot = .ok [c.start] := by
      rw [filterM_eq_ok fun p hp => hc.isRoot p (hlt p hp), List.filter_eq,
        List.count_eq_one_of_mem hnodup hstart]
      rfl
    have haccepted : Accepted c input := ⟨hne, u, hu⟩
    refine ⟨⟨input.length, cells, [c.start]⟩, ?_, rfl, hle, fun _ => rfl, fun _ => hg,
      fun h => absurd haccepted h, fun h => absurd haccepted h⟩
    have hsize := Triangle.size_eq_ok.2 ⟨hmax, rfl⟩
    simp only [ofChart, hb, ht.len, except_ok_bind, if_true, hsize, hcells,
      cellAt_of_groups hg hle hcontains, htop, hroots]
    rfl

end Chomsky.Forest
