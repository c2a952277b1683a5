import Mathlib.Data.List.Induction
import Chomsky.Proofs.NormalGrammar.WellFormed
import Chomsky.Proofs.Triangle
import Chomsky.Theory.Chart

/-!
The plain search, span by span: what it finds for a span depends on shorter spans alone, and is
never added to later. So all entries of a span follow from the entries of the whole search.
-/

namespace Chomsky.Search

variable {α : Type} {c : NormalGrammar α} {input : List (Option Nat)} {es es' : List Entry}
  {row col n p : Nat}

/-- The entries for a span, after those in `es` for shorter ones. -/
def spanEntries (c : NormalGrammar α) (input : List (Option Nat)) (es : List Entry)
    (span : Nat × Nat) : List Entry :=
  if span.1 = 0 then terminalEntries c input span.2 else splitEntries c es span.1 span.2

/-- All entries once the search has gone through some spans. -/
def entriesAfter (c : NormalGrammar α) (input : List (Option Nat))
    (spans : List (Nat × Nat)) : List Entry :=
  spans.foldl (fun es span => es ++ spanEntries c input es span) []

lemma entries_eq : entries c input = entriesAfter c input (Triangle.cells input.length) := rfl

/-- The entries for one span. -/
def atSpan (es : List Entry) (row col : Nat) : List Entry :=
  es.filter fun e => e.row = row && e.col = col

lemma mem_atSpan {e : Entry} : e ∈ atSpan es row col ↔ e ∈ es ∧ e.row = row ∧ e.col = col := by
  simp [atSpan]

lemma atSpan_append_entries (es es' : List Entry) :
    atSpan (es ++ es') row col = atSpan es row col ++ atSpan es' row col :=
  List.filter_append es es'

lemma mem_found : p ∈ found es n row col ↔ p < n ∧ ∃ e ∈ atSpan es row col, e.symbol = p := by
  simp only [found, List.mem_filter, List.mem_range, List.any_eq_true, Bool.and_eq_true,
    decide_eq_true_eq, mem_atSpan]
  exact and_congr_right fun _ => exists_congr fun e => by tauto

lemma found_congr (h : atSpan es row col = atSpan es' row col) :
    found es n row col = found es' n row col := by
  refine List.filter_congr fun p hp => Bool.eq_iff_iff.2 ?_
  have hmem : p ∈ found es n row col ↔ p ∈ found es' n row col := by
    rw [mem_found, mem_found, h]
  simpa [found, List.mem_range.1 hp] using hmem

lemma mem_owners (hc : c.WellFormed) {rule : NormalRule} :
    p ∈ owners c rule ↔ rule ∈ c.rulesAt p := by
  have : (c.rules[p]?.getD []).contains rule = true ↔ rule ∈ c.rulesAt p :=
    List.contains_iff_mem
  rw [owners, List.mem_filter, List.mem_range, this]
  exact and_iff_right_of_imp hc.lt_of_mem_rulesAt

lemma mem_terminalEntries (hc : c.WellFormed) {e : Entry} : e ∈ terminalEntries c input col ↔
    ∃ t p, input[col]? = some (some t) ∧ .terminal t ∈ c.rulesAt p ∧
      e = ⟨0, col, p, .terminal t⟩ := by
  unfold terminalEntries
  split
  · next h =>
    simp only [List.not_mem_nil, false_iff]
    rintro ⟨t, p, ht, -⟩
    simp [ht] at h
  · next t h =>
    have ht : input[col]? = some (some t) := Option.join_eq_some_iff.1 h
    simp only [List.mem_map, mem_owners hc, ht, Option.some.injEq]
    constructor
    · rintro ⟨p, hp, rfl⟩
      exact ⟨t, p, rfl, hp, rfl⟩
    · rintro ⟨_, p, rfl, hp, rfl⟩
      exact ⟨p, hp, rfl⟩

lemma mem_splitEntries (hc : c.WellFormed) {e : Entry} : e ∈ splitEntries c es row col ↔
    ∃ k l r p, 1 ≤ k ∧ k ≤ row ∧ l ∈ found es c.tags.size (k - 1) col ∧
      r ∈ found es c.tags.size (row - k) (col + k) ∧ .pair l r ∈ c.rulesAt p ∧
      e = ⟨row, col, p, .split k l r⟩ := by
  simp only [splitEntries, List.mem_flatMap, List.mem_map, List.mem_range'_1, mem_owners hc]
  constructor
  · rintro ⟨k, ⟨h₁, h₂⟩, l, hl, r, hr, p, hp, rfl⟩
    exact ⟨k, l, r, p, h₁, by omega, hl, hr, hp, rfl⟩
  · rintro ⟨k, l, r, p, h₁, h₂, hl, hr, hp, rfl⟩
    exact ⟨k, ⟨h₁, by omega⟩, l, hl, r, hr, p, hp, rfl⟩

lemma span_of_mem {span : Nat × Nat} {e : Entry} (h : e ∈ spanEntries c input es span) :
    (e.row, e.col) = span := by
  unfold spanEntries at h
  split at h
  · next hs =>
    unfold terminalEntries at h
    split at h
    · exact absurd h List.not_mem_nil
    · obtain ⟨p, -, rfl⟩ := List.mem_map.1 h
      exact Prod.ext hs.symm rfl
  · simp only [splitEntries, List.mem_flatMap, List.mem_map] at h
    obtain ⟨k, -, l, -, r, -, p, -, rfl⟩ := h
    rfl

/-! ### Spans one after another -/

lemma entriesAfter_concat (xs : List (Nat × Nat)) (x : Nat × Nat) :
    entriesAfter c input (xs ++ [x]) =
      entriesAfter c input xs ++ spanEntries c input (entriesAfter c input xs) x := by
  simp [entriesAfter]

lemma span_mem_of_mem {xs : List (Nat × Nat)} {e : Entry} (h : e ∈ entriesAfter c input xs) :
    (e.row, e.col) ∈ xs := by
  induction xs using List.reverseRecOn with
  | nil => exact absurd h List.not_mem_nil
  | append_singleton xs x ih =>
    rw [entriesAfter_concat] at h
    rcases List.mem_append.1 h with h | h
    · exact List.mem_append_left [x] (ih h)
    · rw [span_of_mem h]
      exact List.mem_append_right xs (List.mem_singleton_self x)

lemma atSpan_eq_nil {xs : List (Nat × Nat)} (h : (row, col) ∉ xs) :
    atSpan (entriesAfter c input xs) row col = [] := by
  refine List.filter_eq_nil_iff.2 fun e he hs => h ?_
  simp only [Bool.and_eq_true, decide_eq_true_eq] at hs
  rw [← hs.1, ← hs.2]
  exact span_mem_of_mem he

/-- Other spans add nothing to a span. -/
lemma atSpan_append {xs ys : List (Nat × Nat)} (h : (row, col) ∉ ys) :
    atSpan (entriesAfter c input (xs ++ ys)) row col =
      atSpan (entriesAfter c input xs) row col := by
  induction ys using List.reverseRecOn with
  | nil => rw [List.append_nil]
  | append_singleton ys y ih =>
    rw [List.mem_append, not_or] at h
    rw [← List.append_assoc, entriesAfter_concat, atSpan_append_entries, ih h.1,
      List.append_right_eq_self]
    refine List.filter_eq_nil_iff.2 fun e he hs => h.2 ?_
    simp only [Bool.and_eq_true, decide_eq_true_eq] at hs
    rw [← hs.1, ← hs.2, span_of_mem he]
    exact List.mem_singleton_self y

lemma atSpan_spanEntries : atSpan (spanEntries c input es (row, col)) row col =
    spanEntries c input es (row, col) := by
  refine List.filter_eq_self.2 fun e he => ?_
  have hs := Prod.mk.inj (span_of_mem he)
  simp [hs.1, hs.2]

/-- Only what was found for shorter spans of the word matters to a span. -/
lemma spanEntries_congr (hcontains : Triangle.Contains input.length row col)
    (h : ∀ row' col', row' < row → Triangle.Contains input.length row' col' →
      found es c.tags.size row' col' = found es' c.tags.size row' col') :
    spanEntries c input es (row, col) = spanEntries c input es' (row, col) := by
  unfold spanEntries
  split
  · rfl
  · refine List.flatMap_congr fun k hk => ?_
    obtain ⟨h₁, h₂⟩ := List.mem_range'_1.1 hk
    have h₂ : k ≤ row := by omega
    rw [h (k - 1) col (by omega) (Triangle.contains_left h₁ h₂ hcontains),
      h (row - k) (col + k) (by omega) (Triangle.contains_right h₁ h₂ hcontains)]

/-- When the search comes to a span, the shorter spans are done. -/
lemma found_entriesAfter {xs ys : List (Nat × Nat)}
    (h : Triangle.cells input.length = xs ++ (row, col) :: ys) {row' col' : Nat}
    (hlt : row' < row) (hcontains : Triangle.Contains input.length row' col') :
    found (entriesAfter c input xs) n row' col' = found (entries c input) n row' col' := by
  have hmem := Triangle.mem_of_lt_row h hlt hcontains
  have hnodup := Triangle.nodup_cells input.length
  rw [h] at hnodup
  refine found_congr ?_
  rw [entries_eq, h, atSpan_append]
  exact fun hmem' => (List.nodup_append.1 hnodup).2.2 _ hmem _ hmem' rfl

/-- **The entries of a span** follow from those of the whole search. -/
theorem atSpan_entries (h : Triangle.Contains input.length row col) :
    atSpan (entries c input) row col = spanEntries c input (entries c input) (row, col) := by
  obtain ⟨xs, ys, hcells⟩ := List.append_of_mem (Triangle.mem_cells.2 h)
  have hnodup := Triangle.nodup_cells input.length
  rw [hcells] at hnodup
  obtain ⟨-, hys, -⟩ := List.nodup_append.1 hnodup
  rw [← spanEntries_congr h fun row' col' hlt hc' => found_entriesAfter hcells hlt hc',
    entries_eq, hcells, List.append_cons, atSpan_append (List.nodup_cons.1 hys).1,
    entriesAfter_concat, atSpan_append_entries, atSpan_eq_nil (Triangle.not_mem_of_cells hcells),
    List.nil_append, atSpan_spanEntries]

lemma contains_of_mem {e : Entry} (h : e ∈ entries c input) :
    Triangle.Contains input.length e.row e.col :=
  Triangle.mem_cells.1 (span_mem_of_mem h)

/-- The entry that a rule makes for a span, with `k` as the length of the left part if it is a
pair. -/
def entryBy (row col k p : Nat) : NormalRule → Entry
  | .terminal t => ⟨row, col, p, .terminal t⟩
  | .pair l r => ⟨row, col, p, .split k l r⟩

/-- Every entry is made by a rule of its symbol. -/
lemma exists_entryBy (hc : c.WellFormed) {e : Entry} (h : e ∈ entries c input) :
    ∃ k < input.length, ∃ rule ∈ c.rulesAt e.symbol,
      e = entryBy e.row e.col k e.symbol rule := by
  have hcontains := contains_of_mem h
  have hspan : e ∈ atSpan (entries c input) e.row e.col := mem_atSpan.2 ⟨h, rfl, rfl⟩
  have hrow : e.row < input.length := hcontains.1
  rw [atSpan_entries hcontains, spanEntries] at hspan
  split at hspan
  · obtain ⟨t, p, -, hr, he⟩ := (mem_terminalEntries hc).1 hspan
    rw [he]
    exact ⟨0, by omega, _, hr, rfl⟩
  · obtain ⟨k, l, r, p, -, hk, -, -, hr, he⟩ := (mem_splitEntries hc).1 hspan
    rw [he]
    exact ⟨k, by omega, _, hr, rfl⟩

lemma symbol_lt (hc : c.WellFormed) {e : Entry} (h : e ∈ entries c input) :
    e.symbol < c.tags.size := by
  obtain ⟨k, -, rule, hrule, -⟩ := exists_entryBy hc h
  exact hc.lt_of_mem_rulesAt hrule

end Chomsky.Search
