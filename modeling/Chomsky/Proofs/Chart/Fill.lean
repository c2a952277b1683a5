import Chomsky.Chart
import Chomsky.Proofs.Chart.Search
import Chomsky.Proofs.Trail

/-!
Filling a chart makes the entries of the plain search, in the same order, and the cells then hold
what the search found. The parent sets only pick candidates: no owner of a rule is missed.
-/

namespace Chomsky.Chart

variable {α β : Type} {c : NormalGrammar α} {n : Nat} {s : BitSet} {es es' : List Entry}
  {run : Trail Entry BitSet}

/-- The run makes the entries `es` and puts their symbols into the set `s`. -/
structure Fills (n : Nat) (s : BitSet) (es : List Entry) (run : Trail Entry BitSet) : Prop where
  records : run.records = es
  result : ∃ s', run.result = .ok s' ∧ s'.Fits n ∧
    ∀ p, s'.holds p = true ↔ s.holds p = true ∨ ∃ e ∈ es, e.symbol = p

lemma Fills.nothing (hs : s.Fits n) : Fills n s [] (pure s) :=
  ⟨rfl, s, rfl, hs, by simp⟩

lemma Fills.bind {f : BitSet → Trail Entry BitSet} (h : Fills n s es run)
    (hf : ∀ s', s'.Fits n → Fills n s' es' (f s')) : Fills n s (es ++ es') (run >>= f) := by
  obtain ⟨hr, s', hs', hf', hh'⟩ := h
  obtain ⟨hr'', s'', hs'', hf'', hh''⟩ := hf s' hf'
  rw [Trail.bind_of_ok hs']
  refine ⟨by rw [hr, hr''], s'', hs'', hf'', fun p => ?_⟩
  simp only [hh'', hh', List.mem_append, or_and_right, exists_or, or_assoc]

/-- A loop of such runs, whose entries do not depend on the set. -/
lemma Fills.foldlM {f : BitSet → β → Trail Entry BitSet} {entriesOf : β → List Entry} {xs : List β}
    (hf : ∀ x ∈ xs, ∀ s, s.Fits n → Fills n s (entriesOf x) (f s x)) (hs : s.Fits n) :
    Fills n s (xs.flatMap entriesOf) (xs.foldlM f s) := by
  induction xs generalizing s with
  | nil => exact .nothing hs
  | cons x xs ih =>
    rw [List.foldlM_cons, List.flatMap_cons]
    exact (hf x List.mem_cons_self s hs).bind fun s' hs' =>
      ih (fun y hy => hf y (List.mem_cons_of_mem x hy)) hs'

lemma placeIf_fills (hs : s.Fits n) {e : Entry} {b : Bool} (he : b = true → e.symbol < n) :
    Fills n s (if b then [e] else []) (placeIf b e s) := by
  cases b with
  | false => exact .nothing hs
  | true =>
    obtain ⟨s', hs', hf, hh⟩ := hs.insert (he rfl)
    refine ⟨rfl, s', ?_, hf, fun p => by simp [hh]⟩
    simp only [placeIf, if_true, place, Trail.record_bind_eq_ok]
    exact hs'

/-! ### One cell -/

section Cell

variable (hc : c.WellFormed)

include hc

/-- Candidates that leave out no owner of a rule lead to an entry for each owner. -/
lemma candidates_fill {ps : BitSet} (hps : ps.Fits c.tags.size) {rule : NormalRule}
    (hrule : ∀ q, rule ∈ c.rulesAt q → ps.holds q = true) (row col : Nat) (ptr : Pointer)
    (hs : s.Fits c.tags.size) :
    Fills c.tags.size s ((Search.owners c rule).map fun p => ⟨row, col, p, ptr⟩)
      (ps.elements.foldlM (fun cell p => do
        let found ← c.hasRule p rule
        placeIf found ⟨row, col, p, ptr⟩ cell) s) := by
  have hmap : (Search.owners c rule).map (fun p => Entry.mk row col p ptr) = ps.elements.flatMap
      fun p => if rule ∈ c.rulesAt p then [⟨row, col, p, ptr⟩] else [] := by
    have howners : Search.owners c rule = ps.elements.filter (rule ∈ c.rulesAt ·) := by
      rw [hps.elements, List.filter_filter]
      refine List.filter_congr fun p _ => Bool.eq_iff_iff.2 ?_
      rw [List.contains_iff_mem, Bool.and_eq_true, decide_eq_true_eq]
      exact ⟨fun h => ⟨h, hrule p h⟩, And.left⟩
    rw [howners]
    generalize ps.elements = xs
    induction xs with
    | nil => rfl
    | cons x xs ih =>
      rw [List.flatMap_cons, ← ih, List.filter_cons]
      by_cases hx : rule ∈ c.rulesAt x <;> simp [hx]
  rw [hmap]
  refine Fills.foldlM (fun p hp s hs => ?_) hs
  have hp : p < c.tags.size := hps.lt (hps.mem_elements.1 hp)
  rw [NormalGrammar.hasRule_of_lt (by rwa [hc.rules_size]), Trail.lift_ok_bind]
  simpa using placeIf_fills hs (e := ⟨row, col, p, ptr⟩) (b := decide (rule ∈ c.rulesAt p))
    fun _ => hp

lemma terminalCell_fills {input : List (Option Nat)} {col : Nat} :
    Fills c.tags.size (BitSet.empty c.tags.size) (Search.terminalEntries c input col)
      (terminalCell c col input[col]?.join) := by
  have hempty := BitSet.fits_empty c.tags.size
  unfold terminalCell Search.terminalEntries
  rw [hc.size]
  cases input[col]?.join with
  | none => exact .nothing hempty
  | some t =>
    by_cases ht : t < c.tags.size
    · rw [Option.filter_some, if_pos (by simpa using ht)]
      obtain ⟨ps, hps, hf, hh⟩ := hc.parentsOf ht
      have hwrap : ps.elements.map c.width.wrap = ps.elements :=
        (List.map_congr_left fun p hp =>
          hc.wrap_of_lt (hf.lt (hf.mem_elements.1 hp))).trans (List.map_id' _)
      simp only [hps, Trail.lift_ok_bind, hwrap, hf.checkWords, bind_pure]
      exact candidates_fill hc hf (fun q hq => (hh q).2 ⟨_, hq, by simp [NormalRule.members]⟩) 0
        col (.terminal t) hempty
    · rw [Option.filter_some, if_neg (by simpa using ht)]
      have hnil : Search.owners c (.terminal t) = [] := List.eq_nil_iff_forall_not_mem.2
        fun p hp => ht (hc.terminals.lt (hc.terminal_rule p t ((Search.mem_owners hc).1 hp)))
      simp only [hnil, List.map_nil]
      exact .nothing hempty

lemma placePair_fills {row col after l r : Nat} (hl : l < c.tags.size) (hr : r < c.tags.size)
    (hs : s.Fits c.tags.size) :
    Fills c.tags.size s
      ((Search.owners c (.pair l r)).map fun p => ⟨row, col, p, .split after l r⟩)
      (placePair c row col after s l r) := by
  obtain ⟨ps, hps, hf, hh⟩ := hc.sharedParents hl hr
  rw [placePair, hps, Trail.lift_ok_bind]
  exact candidates_fill hc hf hh row col (.split after l r) hs

end Cell

/-! ### All cells -/

variable {input : List (Option Nat)} {cells : Array BitSet} {row col : Nat}

/-- The set holds what `found` lists. -/
def Lists (n : Nat) (s : BitSet) (found : List Nat) : Prop :=
  s.Fits n ∧ ∀ p, s.holds p = true ↔ p ∈ found

lemma Lists.elements {es : List Entry} (h : Lists n s (Search.found es n row col)) :
    s.elements = Search.found es n row col := by
  rw [h.1.elements, Search.found]
  refine List.filter_congr fun p hp => Bool.eq_iff_iff.2 ?_
  rw [h.2, Search.found, List.mem_filter, and_iff_right hp]

/-- The cells of the spans gone through hold what was found for them. -/
structure Filled (c : NormalGrammar α) (input : List (Option Nat)) (spans : List (Nat × Nat))
    (cells : Array BitSet) : Prop where
  size : cells.size = spans.length
  cell : ∀ (i : Nat) (row col : Nat), spans[i]? = some (row, col) → ∃ s, cells[i]? = some s ∧
    Lists c.tags.size s
      (Search.found (Search.entriesAfter c input spans) c.tags.size row col)

lemma Filled.cellAt {spans : List (Nat × Nat)} (h : Filled c input spans cells)
    {rest : List (Nat × Nat)} (hspans : Triangle.cells input.length = spans ++ rest)
    (hmem : (row, col) ∈ spans) (hmax : input.length * input.length ≤ Size.max) :
    ∃ s, Chart.cellAt input.length cells row col = .ok s ∧ Lists c.tags.size s
      (Search.found (Search.entriesAfter c input spans) c.tags.size row col) := by
  have hcontains : Triangle.Contains input.length row col :=
    Triangle.mem_cells.1 (hspans ▸ List.mem_append_left rest hmem)
  obtain ⟨s, hs, hl⟩ := h.cell _ row col (Triangle.getElem?_of_prefix hspans hmem)
  refine ⟨s, ?_, hl⟩
  rw [Chart.cellAt, Triangle.offset_eq hcontains hmax, except_ok_bind, hs]
  rfl

section Fill

variable (hc : c.WellFormed)

include hc

lemma splitCell_fills {spans rest : List (Nat × Nat)} (h : Filled c input spans cells)
    (hspans : Triangle.cells input.length = spans ++ (row, col) :: rest)
    (hmax : input.length * input.length ≤ Size.max) :
    Fills c.tags.size (BitSet.empty c.tags.size)
      (Search.splitEntries c (Search.entriesAfter c input spans) row col)
      (splitCell c input.length cells row col) := by
  have hcontains : Triangle.Contains input.length row col :=
    Triangle.mem_cells.1 (hspans ▸ List.mem_append_right spans List.mem_cons_self)
  have hlen : input.length ≤ Size.max :=
    (Nat.le_mul_of_pos_left _ (by have := hcontains.1; omega)).trans hmax
  rw [splitCell, hc.size]
  refine Fills.foldlM (fun k hk s hs => ?_) (BitSet.fits_empty _)
  obtain ⟨h₁, h₂⟩ := List.mem_range'_1.1 hk
  have h₂ : k ≤ row := by omega
  obtain ⟨left, hleft, hl⟩ := h.cellAt hspans (Triangle.mem_of_lt_row hspans (by omega)
    (Triangle.contains_left h₁ h₂ hcontains)) hmax
  obtain ⟨right, hright, hr⟩ := h.cellAt hspans (Triangle.mem_of_lt_row hspans (by omega)
    (Triangle.contains_right h₁ h₂ hcontains)) hmax
  simp only [placeSplit, Triangle.parts_eq h₁ h₂ hcontains hlen, Trail.lift_ok_bind, hleft, hright]
  rw [hl.elements, hr.elements]
  refine Fills.foldlM (fun l hl s hs => Fills.foldlM (fun r hr s hs => ?_) hs) hs
  exact placePair_fills hc (Search.mem_found.1 hl).1 (Search.mem_found.1 hr).1 hs

omit hc in
lemma fillCell_eq : fillCell c input cells (row, col) =
    (if row = 0 then terminalCell c col input[col]?.join
      else splitCell c input.length cells row col) >>= fun s => pure (cells.push s) := by
  simp only [fillCell]
  split <;> rfl

lemma fillCell_spec {spans rest : List (Nat × Nat)} {span : Nat × Nat}
    (h : Filled c input spans cells)
    (hspans : Triangle.cells input.length = spans ++ span :: rest)
    (hmax : input.length * input.length ≤ Size.max) : ∃ cells',
    fillCell c input cells span =
      ⟨Search.spanEntries c input (Search.entriesAfter c input spans) span, .ok cells'⟩ ∧
        Filled c input (spans ++ [span]) cells' := by
  obtain ⟨row, col⟩ := span
  have hfills : Fills c.tags.size (BitSet.empty c.tags.size)
      (Search.spanEntries c input (Search.entriesAfter c input spans) (row, col))
      (if row = 0 then terminalCell c col input[col]?.join
        else splitCell c input.length cells row col) := by
    unfold Search.spanEntries
    split
    · exact terminalCell_fills hc
    · exact splitCell_fills hc h hspans hmax
  obtain ⟨hrecords, s, hs, hf, hh⟩ := hfills
  have hnot := Triangle.not_mem_of_cells hspans
  refine ⟨cells.push s, ?_, by simp [h.size], fun i row' col' hi => ?_⟩
  · rw [fillCell_eq, Trail.bind_of_ok hs, hrecords]
    simp
  · obtain ⟨hi, hpush⟩ | ⟨hspan, hpush⟩ := Triangle.getElem?_push_concat (v := s) h.size hi
    · have hne : (row', col') ≠ (row, col) := fun he => hnot (he ▸ List.mem_of_getElem? hi)
      obtain ⟨s', hs', hl⟩ := h.cell i row' col' hi
      refine ⟨s', hpush.trans hs', ?_⟩
      rwa [Search.found_congr (Search.atSpan_append (by simpa using hne))]
    · obtain ⟨rfl, rfl⟩ := Prod.mk.inj hspan
      refine ⟨s, hpush, hf, fun p => ?_⟩
      rw [hh, BitSet.holds_empty, Search.mem_found, Search.entriesAfter_concat,
        Search.atSpan_append_entries, Search.atSpan_eq_nil hnot, List.nil_append,
        Search.atSpan_spanEntries]
      simp only [Bool.false_eq_true, false_or]
      refine (and_iff_right_of_imp fun hp => ?_).symm
      exact hf.lt ((hh p).2 (.inr hp))

/-- Going through the rest of the spans. -/
lemma fillCells_spec (hmax : input.length * input.length ≤ Size.max)
    (spans rest : List (Nat × Nat)) (h : Filled c input spans cells)
    (hspans : Triangle.cells input.length = spans ++ rest) : ∃ es cells',
    rest.foldlM (fillCell c input) cells = ⟨es, .ok cells'⟩ ∧
      Search.entriesAfter c input spans ++ es = Search.entries c input ∧
        Filled c input (Triangle.cells input.length) cells' := by
  induction rest generalizing spans cells with
  | nil =>
    rw [List.append_nil] at hspans
    exact ⟨[], cells, rfl, by rw [List.append_nil, Search.entries_eq, hspans], hspans ▸ h⟩
  | cons span rest ih =>
    obtain ⟨cells₁, h₁, hf₁⟩ := fillCell_spec hc h hspans hmax
    obtain ⟨es, cells₂, h₂, hes, hf₂⟩ := ih (spans ++ [span]) hf₁
      (by rw [hspans, List.append_assoc]; rfl)
    refine ⟨_, cells₂, by rw [List.foldlM_cons, h₁, Trail.mk_ok_bind, h₂], ?_, hf₂⟩
    rw [← hes, Search.entriesAfter_concat, List.append_assoc]

/-- Going through some symbols, of which only the start is a root. -/
lemma insertRoots_spec (xs : List Nat) (hxs : ∀ i ∈ xs, i < c.tags.size)
    (hs : s.Fits c.tags.size) : ∃ s', xs.foldlM (fun (s : BitSet) i => do
      if ← c.isRoot i then s.insert i else pure s) s = .ok s' ∧ s'.Fits c.tags.size ∧
        ∀ p, s'.holds p = true ↔ s.holds p = true ∨ p ∈ xs ∧ p = c.start := by
  induction xs generalizing s with
  | nil => exact ⟨s, rfl, hs, by simp⟩
  | cons i xs ih =>
    have hi := hxs i List.mem_cons_self
    have hxs : ∀ j ∈ xs, j < c.tags.size := fun j hj => hxs j (List.mem_cons_of_mem i hj)
    rw [List.foldlM_cons, hc.isRoot i hi, except_ok_bind]
    by_cases hroot : i = c.start
    · obtain ⟨s₁, h₁, hf₁, hh₁⟩ := hs.insert hi
      obtain ⟨s₂, h₂, hf₂, hh₂⟩ := ih hxs hf₁
      refine ⟨s₂, by rw [if_pos (by simpa using hroot), h₁]; exact h₂, hf₂, fun p => ?_⟩
      rw [hh₂, hh₁, Bool.or_eq_true, decide_eq_true_eq, List.mem_cons]
      constructor
      · rintro ((h | rfl) | h)
        · exact .inl h
        · exact .inr ⟨.inl rfl, hroot⟩
        · exact .inr ⟨.inr h.1, h.2⟩
      · rintro (h | ⟨rfl | h, hp⟩)
        · exact .inl (.inl h)
        · exact .inl (.inr rfl)
        · exact .inr ⟨h, hp⟩
    · obtain ⟨s₂, h₂, hf₂, hh₂⟩ := ih hxs hs
      refine ⟨s₂, by rw [if_neg (by simpa using hroot)]; exact h₂, hf₂, fun p => ?_⟩
      rw [hh₂, List.mem_cons]
      refine or_congr_right ⟨fun h => ⟨.inr h.1, h.2⟩, fun h => ⟨h.1.resolve_left ?_, h.2⟩⟩
      exact fun hp => hroot (hp ▸ h.2)

lemma rootSet_spec : ∃ s, rootSet c = .ok s ∧ s.Fits c.tags.size ∧
    ∀ p, s.holds p = true ↔ p = c.start := by
  obtain ⟨s, hs, hf, hh⟩ := insertRoots_spec hc (List.range c.tags.size)
    (fun i hi => List.mem_range.1 hi) (BitSet.fits_empty _)
  refine ⟨s, by rw [rootSet, hc.indices, hc.size]; exact hs, hf, fun p => ?_⟩
  rw [hh, BitSet.holds_empty, List.mem_range]
  simp only [Bool.false_eq_true, false_or]
  exact and_iff_right_of_imp fun hp => hp ▸ hc.start_lt

end Fill

/-- A chart of `input` whose cells hold what the plain search finds. -/
structure Matches (c : NormalGrammar α) (input : List (Option Nat)) (t : Chart) : Prop where
  len : t.len = input.length
  cell : ∀ row col, Triangle.Contains input.length row col → ∃ s, t.cell row col = .ok s ∧
    Lists c.tags.size s (Search.found (Search.entries c input) c.tags.size row col)
  roots : t.roots.Fits c.tags.size ∧ ∀ p, t.roots.holds p = true ↔ p = c.start

/-- **Filling is the plain search**: the entries are the same in the same order, as long as the
cells can be counted. -/
theorem fillAll_eq (hc : c.WellFormed) (hcells : input.length * (input.length + 1) ≤ Size.max) :
    ∃ t, fillAll c input = ⟨Search.entries c input, .ok t⟩ ∧ Matches c input t := by
  have hle : input.length * input.length ≤ Size.max :=
    (Nat.mul_le_mul_left _ (Nat.le_succ _)).trans hcells
  obtain ⟨roots, hroots, hf, hh⟩ := rootSet_spec hc
  obtain ⟨es, cells, hfill, hes, hfilled⟩ := fillCells_spec hc hle []
    (Triangle.cells input.length) ⟨(rfl : #[].size = 0), by simp⟩ rfl
  refine ⟨⟨input.length, cells, roots⟩, ?_, rfl, fun row col hcontains => ?_, hf, hh⟩
  · have hsize := Triangle.size_eq_ok.2 ⟨hcells, rfl⟩
    simp only [fillAll, hroots, hsize, Trail.lift_ok_bind, hfill, Trail.mk_ok_bind, ← hes]
    simp [Search.entriesAfter]
  · exact hfilled.cellAt (List.append_nil _).symm (Triangle.mem_cells.2 hcontains) hle

/-! ### The counter of entries -/

lemma cells_of_fillAll {t : Chart} (h : (fillAll c input).result = .ok t) :
    input.length * (input.length + 1) ≤ Size.max := by
  simp only [fillAll, Trail.bind_eq_ok, Trail.result_lift] at h
  obtain ⟨-, -, k, hk, -⟩ := h
  exact (Triangle.size_eq_ok.1 hk).1

/-- Without the counter, there is a chart just where the cells can be counted. -/
lemma fillAll_eq_ok (hc : c.WellFormed) : (∃ t, (fillAll c input).result = .ok t) ↔
    input.length * (input.length + 1) ≤ Size.max := by
  constructor
  · exact fun ⟨t, h⟩ => cells_of_fillAll h
  · intro h
    obtain ⟨t, ht, -⟩ := fillAll_eq hc h
    exact ⟨t, by rw [ht]⟩

/-- As long as the counter does not give out, it makes no difference. -/
theorem fill_eq (hc : c.WellFormed) (h : Countable c input) :
    ∃ t, fill c input = ⟨Search.entries c input, .ok t⟩ ∧ Matches c input t := by
  obtain ⟨t, ht, hm⟩ := fillAll_eq hc h.cells
  refine ⟨t, ?_, hm⟩
  rw [fill, ht, Trail.counted_of_le h.entries]

/-- There is a chart just where cells and entries can be counted. -/
lemma fill_eq_ok (hc : c.WellFormed) :
    (∃ t, (fill c input).result = .ok t) ↔ Countable c input := by
  constructor
  · rintro ⟨t, h⟩
    obtain ⟨h, hle⟩ := Trail.counted_eq_ok.1 h
    have hcells := cells_of_fillAll h
    obtain ⟨t', ht', -⟩ := fillAll_eq hc hcells
    rw [ht'] at hle
    exact ⟨hcells, hle⟩
  · intro h
    obtain ⟨t, ht, -⟩ := fill_eq hc h
    exact ⟨t, by rw [ht]⟩

/-- If the cells can be counted, nothing but the counter of entries gives out. -/
lemma fill_eq_error (hc : c.WellFormed)
    (hcells : input.length * (input.length + 1) ≤ Size.max) {e : Fault} :
    (fill c input).result = .error e ↔
      e = .counterFull ∧ maxEntries < (Search.entries c input).length := by
  obtain ⟨t, ht, -⟩ := fillAll_eq hc hcells
  rw [fill, Trail.counted_eq_error, ht]
  simp

end Chomsky.Chart
