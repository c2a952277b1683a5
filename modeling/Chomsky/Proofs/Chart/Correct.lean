import Chomsky.Proofs.Chart.Fill
import Chomsky.Proofs.NormalGrammar.Snapshot
import Chomsky.Proofs.NormalGrammar.Trees

/-!
Charts are sound and complete: a cell holds the non-terminals that derive its span. The induction
is on the length of the span, along the search that the chart carries out.
-/

namespace Chomsky

variable {α : Type} {c : NormalGrammar α} {input : List (Option Nat)} {row col p : Nat}

/-- **The search finds what has a tree.** -/
theorem Search.mem_found_iff (hc : c.WellFormed)
    (h : Triangle.Contains input.length row col) :
    p ∈ found (entries c input) c.tags.size row col ↔ ∃ t, c.Spans input row col p t := by
  induction row using Nat.strong_induction_on generalizing col p with
  | _ row ih =>
    have hpart : ∀ {k l r}, 1 ≤ k → k ≤ row →
        (l ∈ found (entries c input) c.tags.size (k - 1) col ↔
          ∃ t, c.Spans input (k - 1) col l t) ∧
        (r ∈ found (entries c input) c.tags.size (row - k) (col + k) ↔
          ∃ t, c.Spans input (row - k) (col + k) r t) := fun h₁ h₂ =>
      ⟨ih _ (by omega) (Triangle.contains_left h₁ h₂ h),
        ih _ (by omega) (Triangle.contains_right h₁ h₂ h)⟩
    rw [mem_found, atSpan_entries h, spanEntries]
    constructor
    · rintro ⟨-, e, he, rfl⟩
      split at he
      · next h0 =>
        obtain ⟨x, q, hx, hr, rfl⟩ := (mem_terminalEntries hc).1 he
        exact ⟨_, (NormalGrammar.spans_iff hc h).2 (.inl ⟨x, h0, hx, hr, rfl⟩)⟩
      · obtain ⟨k, l, r, q, h₁, h₂, hl, hr, hrule, rfl⟩ := (mem_splitEntries hc).1 he
        obtain ⟨lt, hlt⟩ := (hpart (r := r) h₁ h₂).1.1 hl
        obtain ⟨rt, hrt⟩ := (hpart (l := l) h₁ h₂).2.1 hr
        exact ⟨_, (NormalGrammar.spans_iff hc h).2
          (.inr ⟨k, l, r, lt, rt, h₁, h₂, hrule, rfl, hlt, hrt⟩)⟩
    · rintro ⟨t, ht⟩
      obtain ⟨x, rfl, hx, hr, -⟩ | ⟨k, l, r, lt, rt, h₁, h₂, hrule, -, hlt, hrt⟩ :=
        (NormalGrammar.spans_iff hc h).1 ht
      · refine ⟨hc.lt_of_mem_rulesAt hr, ⟨0, col, p, .terminal x⟩, ?_, rfl⟩
        rw [if_pos rfl]
        exact (mem_terminalEntries hc).2 ⟨x, p, hx, hr, rfl⟩
      · refine ⟨hc.lt_of_mem_rulesAt hrule, ⟨row, col, p, .split k l r⟩, ?_, rfl⟩
        rw [if_neg (by simp; omega)]
        exact (mem_splitEntries hc).2 ⟨k, l, r, p, h₁, h₂, (hpart (r := r) h₁ h₂).1.2 ⟨lt, hlt⟩,
          (hpart (l := l) h₁ h₂).2.2 ⟨rt, hrt⟩, hrule, rfl⟩

namespace Chart

variable {t : Chart}

lemma Matches.accepts (hc : c.WellFormed) (ht : Matches c input t) : ∃ b, t.accepts = .ok b ∧
    (b = true ↔ input ≠ [] ∧ ∃ u, c.Spans input (input.length - 1) 0 c.start u) := by
  unfold Chart.accepts
  by_cases h : input = []
  · exact ⟨false, by rw [if_pos (by simp [ht.len, h])], by simp [h]⟩
  · have hcontains := contains_whole h
    obtain ⟨top, htop, hl⟩ := ht.cell _ _ hcontains
    obtain ⟨both, hboth, hf, hh⟩ := hl.1.inter ht.roots.1
    refine ⟨!both.elements.isEmpty, ?_, ?_⟩
    · rw [if_neg (by rw [ht.len]; simpa using h), ht.len, htop, except_ok_bind, hboth]
      rfl
    · rw [← Search.mem_found_iff hc hcontains, ← hl.2, Bool.not_eq_true',
        List.isEmpty_eq_false_iff_exists_mem]
      simp only [hf.mem_elements, hh, Bool.and_eq_true, ht.roots.2, exists_eq_right]
      exact (and_iff_right h).symm

/-- **The chart is sound and complete.** There is a chart just where its cells and its entries can
be counted; all entries, however many, can be made where the cells can be counted, and lead to the
same chart. Each cell holds the non-terminals that derive its span, in which every symbol is then a
known terminal, and the input is accepted if the start symbol derives it. -/
theorem fill_correct [DecidableEq α] {g g' : Grammar α} (hg : g.Reachable)
    (hn : g.normalize.result = .ok (g', c)) (input : List (Option Nat)) :
    ((∃ t, (fill c input).result = .ok t) ↔ Countable c input) ∧
    ((∃ t, (fillAll c input).result = .ok t) ↔
      input.length * (input.length + 1) ≤ Size.max) ∧
    (∀ t, (fill c input).result = .ok t → (fillAll c input).result = .ok t) ∧
    ∀ t, (fillAll c input).result = .ok t →
      (∀ row col, row < input.length → col < input.length - row →
        ∃ s, t.cell row col = .ok s ∧ ∀ p, ∃ b, s.test p = .ok b ∧
          (b = true ↔ c.isTerminal p = .ok false ∧
            ∃ w : List Nat, (input.drop col).take (row + 1) = w.map some ∧ c.Derives p w)) ∧
      ∃ b, t.accepts = .ok b ∧ (b = true ↔ input ≠ [] ∧
        ∃ w : List Nat, input = w.map some ∧ c.Derives c.start w) := by
  obtain ⟨-, hc, -⟩ := Grammar.normalize_mirrors hg hn
  refine ⟨fill_eq_ok hc, fillAll_eq_ok hc, fun t ht => (Trail.counted_eq_ok.1 ht).1,
    fun t ht => ?_⟩
  obtain ⟨t', ht', hm⟩ := fillAll_eq hc ((fillAll_eq_ok hc).1 ⟨t, ht⟩)
  obtain rfl : t' = t := by
    rw [ht'] at ht
    exact Except.ok.inj ht
  refine ⟨fun row col hrow hcol => ?_, ?_⟩
  · obtain ⟨s, hs, hl⟩ := hm.cell row col ⟨hrow, hcol⟩
    refine ⟨s, hs, fun p => ⟨s.holds p, hl.1.test p, ?_⟩⟩
    rw [hl.2, Search.mem_found_iff hc ⟨hrow, hcol⟩, NormalGrammar.exists_spans_iff hc]
  · obtain ⟨b, hb, hiff⟩ := hm.accepts hc
    exact ⟨b, hb, hiff.trans (and_congr_right (NormalGrammar.exists_spans_start_iff hc))⟩

theorem fill_correct_alternating : Grammar.alternating.Reachable ∧
    Grammar.alternating.normalize.result =
      .ok (Grammar.alternatingResult, Grammar.alternatingSnapshot) ∧
      ∃ t, (fill Grammar.alternatingSnapshot [some 1, some 1, some 1]).result = .ok t ∧
        ∃ b, t.accepts = .ok b := by
  refine ⟨Grammar.alternating_reachable, Grammar.alternating_normalize, ?_⟩
  obtain ⟨hok, -, hall, hcorrect⟩ := fill_correct Grammar.alternating_reachable
    Grammar.alternating_normalize [some 1, some 1, some 1]
  obtain ⟨t, ht⟩ := hok.2 (by decide)
  obtain ⟨-, b, hb, -⟩ := hcorrect t (hall t ht)
  exact ⟨t, ht, b, hb⟩

end Chart

end Chomsky
