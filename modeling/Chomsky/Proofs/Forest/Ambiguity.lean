import Mathlib.Data.Set.Finite.Lattice
import Mathlib.Order.Interval.Finset.Nat
import Chomsky.Proofs.Forest.Exact
import Chomsky.Proofs.Normalize.Ambiguity
import Chomsky.Proofs.Normalize.Language

/-!
The count of a forest is the number of parse trees by the rules before normalisation, if none of
those is a unit rule.
-/

namespace Chomsky

variable {α : Type} {g g' : Grammar α} {c : NormalGrammar α} {input : List (Option Nat)}
  {w : List Nat}

namespace NormalGrammar

variable {row col p : Nat}

/-- The trees over a span are finite in number, by induction on the row: both parts of a span are
in rows before it. -/
lemma finite_spans (hc : c.WellFormed) (h : Triangle.Contains input.length row col) :
    {t | c.Spans input row col p t}.Finite := by
  induction row using Nat.strong_induction_on generalizing col p with
  | _ row ih =>
    have hrules : {rule | rule ∈ c.rulesAt p}.Finite := List.finite_toSet _
    have hpairs : {x : Nat × Nat | NormalRule.pair x.1 x.2 ∈ c.rulesAt p}.Finite :=
      hrules.preimage fun x _ y _ hxy => by
        obtain ⟨h₁, h₂⟩ := NormalRule.pair.inj hxy
        exact Prod.ext h₁ h₂
    have hterminal := hrules.image fun rule => Tree.node p (rule.members.map (.leaf · col))
    have hpair := hpairs.biUnion fun x _ => (Set.finite_Icc 1 row).biUnion fun k hk =>
      Set.Finite.image2 (fun lt rt => Tree.node p [lt, rt])
        (ih (k - 1) (by have := hk.1; have := hk.2; omega) (p := x.1)
          (Triangle.contains_left hk.1 hk.2 h))
        (ih (row - k) (by have := hk.1; have := hk.2; omega) (p := x.2)
          (Triangle.contains_right hk.1 hk.2 h))
    refine (hterminal.union hpair).subset fun t ht => ?_
    obtain ⟨x, -, -, hr, rfl⟩ | ⟨k, l, r, lt, rt, h₁, h₂, hr, rfl, hl, hr'⟩ :=
      (spans_iff hc h).1 ht
    · exact .inl ⟨_, hr, rfl⟩
    · exact .inr (Set.mem_biUnion (x := (l, r)) hr
        (Set.mem_biUnion (x := k) ⟨h₁, h₂⟩ ⟨lt, hl, rt, hr', rfl⟩))

lemma finite_derivations (hc : c.WellFormed) : (c.derivations input).Finite := by
  rcases eq_or_ne input [] with rfl | hne
  · refine Set.finite_empty.subset fun t ht => ?_
    exact ((mem_derivations hc).1 ht).1 rfl
  · exact (finite_spans hc (contains_whole hne)).subset fun t ht => ((mem_derivations hc).1 ht).2

end NormalGrammar

/-- The derivation trees by a snapshot are the parse trees by its grammar. -/
lemma Grammar.Mirrors.derivations (hm : g.Mirrors c) (hc : c.WellFormed) :
    c.derivations (w.map some) = {t | g.Parses w t} := by
  ext t
  simp only [NormalGrammar.derivations, Grammar.Parses, Set.mem_ofPred_eq, hm.start]
  refine and_congr_right fun hs => and_congr ?_ Tree.inputPlaces_eq_iff
  rw [NormalGrammar.derivation_iff hc, NormalGrammar.Grows, hm.ruleSet, hm.terminal_eq hc]
  refine and_iff_left ?_
  rw [hs, ← hm.start]
  exact hc.start_nonterminal

namespace Parser

variable {limit : Option Nat}

lemma resolveIndices_of_lt (h : ∀ t ∈ w, t < c.size) :
    resolveIndices ⟨c, limit⟩ w = w.map some :=
  List.map_congr_left fun t ht => if_pos (h t ht)

/-- **Normalisation keeps ambiguity.** In a grammar without unit rules a word has `N` parse trees,
and then `N` is what the forest of the word by the snapshot counts, up to the greatest size. -/
theorem count_normalize [DecidableEq α] (hg : g.Reachable)
    (hn : g.normalize.result = .ok (g', c)) (hu : g.UnitFree)
    (hw : ∀ t ∈ w, g.isTerminal t = true) : ∃ N : ℕ, {t | g.Parses w t}.encard = N ∧
      ((∃ f, (parseIndices ⟨c, limit⟩ w).result = .ok f) ↔ Chart.Countable c (w.map some)) ∧
      ∀ f, (parseIndices ⟨c, limit⟩ w).result = .ok f → f.count = .ok (min N Size.max) := by
  obtain ⟨-, hc, hm⟩ := Grammar.normalize_mirrors hg hn
  have hsize : ∀ t ∈ w, t < c.size := fun t ht => by
    rw [hc.size, hm.size]
    exact (Grammar.lt_of_isTerminal (hw t ht)).trans_le
      (Grammar.normalize_sameLanguage hg.wellFormed hn).length_le
  have hcard : (c.derivations (w.map some)).encard = {t | g.Parses w t}.encard := by
    rw [hm.derivations hc]
    exact Grammar.normalize_encard hg.wellFormed hu hn w.zipIdx
  obtain ⟨N, hN⟩ : ∃ N : ℕ, (c.derivations (w.map some)).encard = N :=
    (NormalGrammar.finite_derivations hc).exists_encard_eq_coe
  rw [parseIndices, resolveIndices_of_lt hsize]
  refine ⟨N, hcard.symm.trans hN, parseInput_eq_ok hc, fun f hf => ?_⟩
  have hh := holds_of_parseInput hc hf
  rw [hh.count hc, hh.length_allTrees hc hN]
  rfl

lemma unitFree_alternating : Grammar.alternating.UnitFree := by
  intro p m hm
  match p with
  | 0 =>
    obtain rfl : m = 1 := by simpa [Grammar.rules, Grammar.alternating] using hm
    rfl
  | 1 => simp [Grammar.rules, Grammar.alternating] at hm
  | p + 2 => simp [Grammar.rules, Grammar.alternating] at hm

theorem count_normalize_alternating : Grammar.alternating.Reachable ∧
    Grammar.alternating.normalize.result =
      .ok (Grammar.alternatingResult, Grammar.alternatingSnapshot) ∧
    Grammar.alternating.UnitFree ∧
    (∀ t ∈ [1, 1, 1, 1, 1], Grammar.alternating.isTerminal t = true) ∧
    {t | Grammar.alternating.Parses [1, 1, 1, 1, 1] t}.encard = 2 ∧
    ∃ f, (parseIndices ⟨Grammar.alternatingSnapshot, none⟩ [1, 1, 1, 1, 1]).result = .ok f ∧
      f.count = .ok 2 := by
  have hw : ∀ t ∈ [1, 1, 1, 1, 1], Grammar.alternating.isTerminal t = true := by decide
  obtain ⟨N, hN, -, hcount⟩ := count_normalize Grammar.alternating_reachable
    Grammar.alternating_normalize unitFree_alternating hw
  have hrun : ((parseIndices ⟨Grammar.alternatingSnapshot, none⟩ [1, 1, 1, 1, 1]).result >>=
      Forest.count) = .ok 2 := by decide +kernel
  obtain ⟨f, hf, hf₂⟩ := except_bind_eq_ok.1 hrun
  have hcap : min N Size.max = 2 := Except.ok.inj ((hcount f hf).symm.trans hf₂)
  obtain rfl : N = 2 := by
    have hmax : 2 < Size.max := by decide
    omega
  exact ⟨Grammar.alternating_reachable, Grammar.alternating_normalize, unitFree_alternating, hw,
    hN, f, hf, hf₂⟩

end Parser

end Chomsky
