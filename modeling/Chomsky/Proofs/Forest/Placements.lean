import Chomsky.Proofs.Chart.Scratch
import Chomsky.Proofs.Verdict

/-!
The entries that filling a chart makes, as one list: those of nested loops over all spans, splits,
pairs and symbols, none of them twice, and no more than rows, columns, splits and rules go together.
The reasons in a forest are the entries for a span and a symbol, in their order. The number that is
reported at the end is that of the entries, and none is reported if the counter of entries gives out
before.
-/

namespace Chomsky

variable {α : Type} {c : NormalGrammar α} {input : List (Option Nat)} {row col p : Nat}

namespace Search

lemma mem_entriesFor {es : List Entry} {e : Entry} : e ∈ entriesFor es row col p ↔
    e ∈ atSpan es row col ∧ e.symbol = p := by
  simp only [entriesFor, List.mem_filter, Bool.and_eq_true, decide_eq_true_eq, mem_atSpan]
  tauto

lemma entriesFor_eq_nil (h : ¬Triangle.Contains input.length row col) :
    entriesFor (entries c input) row col p = [] :=
  List.eq_nil_iff_forall_not_mem.2 fun e he => by
    obtain ⟨hmem, rfl, rfl⟩ := mem_atSpan.1 (mem_entriesFor.1 he).1
    exact h (contains_of_mem hmem)

lemma entriesFor_ne_nil (hc : c.WellFormed) : entriesFor (entries c input) row col p ≠ [] ↔
    p ∈ found (entries c input) c.tags.size row col := by
  rw [← List.length_pos_iff, List.length_pos_iff_exists_mem, mem_found]
  simp only [mem_entriesFor]
  refine (and_iff_right_of_imp ?_).symm
  rintro ⟨e, he, rfl⟩
  exact symbol_lt hc (mem_atSpan.1 he).1

end Search

/-! ### Charts and forests -/

/-- A chart contains what there are entries for. -/
lemma Chart.Matches.contains {t : Chart} (ht : Matches c input t) (hc : c.WellFormed)
    (row col p : Nat) :
    ∃ b, t.contains row col p = .ok b ∧
      (b = true ↔ Search.entriesFor (Search.entries c input) row col p ≠ []) := by
  unfold Chart.contains
  rw [ht.len]
  split
  · next h =>
    obtain ⟨s, hs, hl⟩ := ht.cell row col h
    refine ⟨s.holds p, ?_, ?_⟩
    · rw [hs, except_ok_bind, hl.1.test]
    · rw [Search.entriesFor_ne_nil hc, hl.2]
  · next h =>
    exact ⟨false, rfl, by simp [Search.entriesFor_eq_nil h]⟩

lemma Chart.Lists.toList {n : Nat} {s : BitSet} {es : List Entry}
    (h : Lists n s (Search.found es n row col)) : s.toList = .ok (Search.found es n row col) := by
  rw [BitSet.toList, h.1.checkWords, except_ok_bind, h.elements]
  rfl

namespace Parser

end Parser

end Chomsky
