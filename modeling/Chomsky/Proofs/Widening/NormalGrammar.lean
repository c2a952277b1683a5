import Chomsky.Parser
import Chomsky.Proofs.Chart.Fill
import Chomsky.Proofs.Widening.Normalize

/-!
Normal-form grammars at a greater index width. Questions, charts, forests and trees do not see the
width, because every number that is made an index is one already.
-/

namespace Chomsky

namespace NormalGrammar

variable {α : Type} {c : NormalGrammar α} {w : Width}

/-- All symbols and all identities have an index. -/
structure Indexed (c : NormalGrammar α) : Prop where
  wellFormed : c.WellFormed
  ids_le : c.ids.length ≤ c.width.max

/-- No conversion to an index drops a digit, be it of the number of symbols, of a position, or of an
element of a bit set that a question or a chart walks over. -/
structure Exact [DecidableEq α] (c : NormalGrammar α) : Prop where
  size : c.size = c.tags.size
  indices : c.indices = List.range c.tags.size
  index? : ∀ a, c.index? a = c.ids.findIdx? (· = .user a)
  parents : ∀ i < c.tags.size, ∀ s, c.parentsOf i = .ok s → ∀ p ∈ s.elements, c.width.wrap p = p
  sharedParents : ∀ l r s, c.sharedParents l r = .ok s → ∀ p ∈ s.elements, c.width.wrap p = p
  cells : ∀ input t, (Chart.fill c input).result = .ok t → ∀ row col s, t.cell row col = .ok s →
    ∀ p ∈ s.elements, c.width.wrap p = p

lemma size_of_sharedParents {l r : Nat} {s : BitSet} (h : c.sharedParents l r = .ok s) :
    s.size = c.size := by
  have hempty : (BitSet.empty c.size).size = c.size := rfl
  rw [sharedParents, sharedParentsInto, if_pos hempty, except_bind_eq_ok] at h
  obtain ⟨ls, -, h⟩ := h
  obtain ⟨u, hu, h⟩ := except_bind_eq_ok.1 h
  obtain ⟨rs, -, h⟩ := except_bind_eq_ok.1 h
  have hunion : u.size = c.size := by
    unfold BitSet.union at hu
    split at hu
    · rw [← Except.ok.inj hu]
      rfl
    · cases hu
  unfold BitSet.inter at h
  split at h
  · rw [← Except.ok.inj h]
    exact hunion
  · cases h

lemma lt_size_of_mem_elements {s : BitSet} {p : Nat} (h : p ∈ s.elements) : p < s.size := by
  simpa using (List.mem_filter.1 h).2

@[simp] lemma width_widen : (c.widen w).width = w := rfl

namespace Indexed

variable [DecidableEq α] (hc : c.Indexed)

include hc

lemma exact : c.Exact := by
  have hwrap : ∀ p < c.tags.size, c.width.wrap p = p := fun _ => hc.wellFormed.wrap_of_lt
  refine ⟨hc.wellFormed.size, hc.wellFormed.indices,
    fun a => Width.map_wrap_findIdx? _ hc.ids_le, fun i hi s hs p hp => ?_,
    fun l r s hs p hp => ?_, fun input t ht row col s hs p hp => ?_⟩
  · obtain ⟨s', hs', hf, -⟩ := hc.wellFormed.parentsOf hi
    obtain rfl : s' = s := Except.ok.inj (hs'.symm.trans hs)
    exact hwrap p (hf.lt (hf.mem_elements.1 hp))
  · have hlt := lt_size_of_mem_elements hp
    rw [size_of_sharedParents hs, hc.wellFormed.size] at hlt
    exact hwrap p hlt
  · obtain ⟨t', hfill, hmatches⟩ :=
      Chart.fill_eq hc.wellFormed ((Chart.fill_eq_ok hc.wellFormed).1 ⟨t, ht⟩)
    obtain rfl : t' = t := by
      rw [hfill] at ht
      exact Except.ok.inj ht
    by_cases hcontains : Triangle.Contains input.length row col
    · obtain ⟨s', hs', hl⟩ := hmatches.cell row col hcontains
      obtain rfl : s' = s := Except.ok.inj (hs'.symm.trans hs)
      exact hwrap p (hl.1.lt (hl.1.mem_elements.1 hp))
    · rw [Chart.cell, Chart.cellAt, hmatches.len, Triangle.offset, if_neg hcontains] at hs
      cases hs

end Indexed

/-! ### Questions -/

section Questions

variable (hc : c.Indexed) (hw : c.width.max ≤ w.max)

include hc hw

lemma size_widen : (c.widen w).size = c.size :=
  (Width.wrap_of_le (Nat.le_trans hc.wellFormed.size_le hw)).trans hc.wellFormed.size.symm

lemma indices_widen : (c.widen w).indices = c.indices :=
  (Width.map_wrap_range (Nat.le_trans hc.wellFormed.size_le hw)).trans hc.wellFormed.indices.symm

lemma index?_widen [DecidableEq α] (a : α) : (c.widen w).index? a = c.index? a :=
  (Width.map_wrap_findIdx? _ (Nat.le_trans hc.ids_le hw)).trans (hc.exact.index? a).symm

lemma sharedParentsInto_widen :
    (c.widen w).sharedParentsInto = c.sharedParentsInto := by
  funext l r out
  rw [sharedParentsInto, size_widen hc hw]
  rfl

lemma sharedParents_widen (l r : Nat) : (c.widen w).sharedParents l r = c.sharedParents l r := by
  rw [sharedParents, sharedParents, sharedParentsInto_widen hc hw, size_widen hc hw]

lemma render_widen [Label α] : (c.widen w).render = c.render := by
  rw [render, indices_widen hc hw]
  rfl

end Questions

end NormalGrammar

lemma Tree.render_widen {α : Type} [Label α] {c : NormalGrammar α} {w : Width} (t : Tree) :
    t.render (c.widen w) = t.render c := by
  have hlines : ∀ pending, walkLines (c.widen w) pending = walkLines c pending := by
    intro pending
    fun_induction walkLines c pending with
    | case1 => rw [walkLines]
    | case2 d s p rest ih =>
      rw [walkLines, ih]
      rfl
    | case3 d s ts rest ih =>
      rw [walkLines, ih]
      rfl
  rw [render, render, hlines]

/-! ### Charts and parsers -/

namespace Chart

variable {α : Type} {c : NormalGrammar α} {w : Width} (hc : c.Indexed) (hw : c.width.max ≤ w.max)

include hc hw

lemma terminalCell_widen : terminalCell (c.widen w) = terminalCell c := by
  funext col symbol?
  rw [terminalCell, terminalCell, NormalGrammar.size_widen hc hw]
  cases ht : symbol?.filter (· < c.size) with
  | none => rfl
  | some t =>
    have hlt : t < c.tags.size := by
      rw [← hc.wellFormed.size]
      simpa using (Option.filter_eq_some_iff.1 ht).2
    obtain ⟨ps, hps, hf, -⟩ := hc.wellFormed.parentsOf hlt
    have hparents : (c.widen w).parentsOf t = c.parentsOf t := rfl
    have hmap : ps.elements.map w.wrap = ps.elements.map c.width.wrap := by
      refine List.map_congr_left fun p hp => ?_
      have hp := hf.lt (hf.mem_elements.1 hp)
      have hle := hc.wellFormed.size_le
      rw [Width.wrap_of_le (by omega), Width.wrap_of_le (by omega)]
    simp only [hparents, hps, Trail.lift_ok_bind, NormalGrammar.width_widen, hmap]
    rfl

lemma splitCell_widen : splitCell (c.widen w) = splitCell c := by
  have hpair : placePair (c.widen w) = placePair c := by
    funext row col after cell l r
    rw [placePair, placePair, NormalGrammar.sharedParents_widen hc hw]
    rfl
  have hsplit : placeSplit (c.widen w) = placeSplit c := by
    funext len cells row col cell after
    rw [placeSplit, placeSplit, hpair]
  funext len cells row col
  rw [splitCell, splitCell, hsplit, NormalGrammar.size_widen hc hw]

lemma ofInput_widen (input : List (Option Nat)) : ofInput (c.widen w) input = ofInput c input := by
  have hroots : rootSet (c.widen w) = rootSet c := by
    rw [rootSet, rootSet, NormalGrammar.indices_widen hc hw, NormalGrammar.size_widen hc hw]
    rfl
  have hcell : fillCell (c.widen w) input = fillCell c input := by
    funext cells span
    rw [fillCell, fillCell, terminalCell_widen hc hw, splitCell_widen hc hw]
  have hfill : fill (c.widen w) input = fill c input := by
    rw [fill, fill, fillAll, fillAll, hroots, hcell]
  rw [ofInput, ofInput, hfill]

end Chart

namespace Parser

variable {α : Type} {w : Width}

def widen (w : Width) (p : Parser α) : Parser α := { p with grammar := p.grammar.widen w }

variable {p : Parser α}

@[simp] lemma grammar_widen : (p.widen w).grammar = p.grammar.widen w := rfl

variable (hp : p.grammar.Indexed) (hw : p.grammar.width.max ≤ w.max)

include hp hw

lemma recognizeInput_widen (input : List (Option Nat)) :
    (p.widen w).recognizeInput input = p.recognizeInput input := by
  rw [recognizeInput, recognizeInput, grammar_widen, Chart.ofInput_widen hp hw]

lemma parseInput_widen (input : List (Option Nat)) :
    (p.widen w).parseInput input = p.parseInput input := by
  have hforest : Forest.ofChart (p.grammar.widen w) = Forest.ofChart p.grammar := rfl
  rw [parseInput, parseInput, grammar_widen, Chart.ofInput_widen hp hw, hforest]

lemma resolveIndices_widen (is : List Nat) :
    (p.widen w).resolveIndices is = p.resolveIndices is := by
  rw [resolveIndices, resolveIndices, grammar_widen, NormalGrammar.size_widen hp hw]

lemma recognizeIndices_widen (is : List Nat) :
    (p.widen w).recognizeIndices is = p.recognizeIndices is := by
  rw [recognizeIndices, recognizeIndices, resolveIndices_widen hp hw, recognizeInput_widen hp hw]

lemma parseIndices_widen (is : List Nat) :
    (p.widen w).parseIndices is = p.parseIndices is := by
  rw [parseIndices, parseIndices, resolveIndices_widen hp hw, parseInput_widen hp hw]

variable [DecidableEq α]

lemma resolve_widen (names : List α) : (p.widen w).resolve names = p.resolve names :=
  List.map_congr_left fun a _ => NormalGrammar.index?_widen hp hw a

lemma recognize_widen (names : List α) : (p.widen w).recognize names = p.recognize names := by
  rw [recognize, recognize, resolve_widen hp hw, recognizeInput_widen hp hw]

lemma parse_widen (names : List α) : (p.widen w).parse names = p.parse names := by
  rw [parse, parse, resolve_widen hp hw, parseInput_widen hp hw]

lemma trees_widen (names : List α) : (p.widen w).trees names = p.trees names := by
  rw [trees, trees, parse_widen hp hw]
  rfl

end Parser

end Chomsky
