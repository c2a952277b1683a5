import Chomsky.Proofs.Forest.Ambiguity
import Chomsky.Proofs.Verdict

/-!
The bounds on what a forest gives: its count stays at the end of the 64-bit range, and its trees are
listed up to a limit. Both are what is left of the number and of the list of all trees.
-/

namespace Chomsky

variable {α : Type} {c : NormalGrammar α} {input : List (Option Nat)}

namespace Forest

variable {f : Forest} {row col p : Nat}

/-- The trees of a symbol come reason by reason. -/
lemma Holds.allTreesAt_eq (hf : Holds c input f) (hc : c.WellFormed)
    (h : Triangle.Contains input.length row col) : ∃ ps, f.pointers row col p = .ok ps ∧
      f.allTreesAt row col p = ps.flatMap (f.treesBy row col p) := by
  by_cases ha : Accepted c input
  · exact ⟨_, hf.pointers ha h, hf.allTreesAt hc ha h⟩
  · have hnone : f.pointers row col p = .ok [] := by
      rw [Forest.pointers, hf.isEmpty.2 ha]
      rfl
    refine ⟨[], hnone, ?_⟩
    rw [Forest.allTreesAt, reasons, hnone]
    rfl

lemma Holds.allTrees_eq (hf : Holds c input f) :
    f.allTrees = if f.isEmpty then [] else f.allTreesAt (input.length - 1) 0 c.start := by
  split
  · next h => rw [allTrees, hf.rejected (hf.isEmpty.1 h), List.flatMap_nil]
  · next h => exact hf.allTrees_of_accepted (not_not.1 (mt hf.isEmpty.2 h))

end Forest

namespace Parser

/-- **The count is the number of trees**, or the greatest size if that is less. It is 0 for rejected
inputs alone, and up to any limit as many trees are listed as there are. -/
theorem count_exact [DecidableEq α] {g g' : Grammar α} (hg : g.Reachable)
    (hn : g.normalize.result = .ok (g', c)) (limit : Option Nat) (input : List (Option Nat)) :
    ((∃ f, (parseInput ⟨c, limit⟩ input).result = .ok f) ↔ Chart.Countable c input) ∧
    ∃ N : ℕ, (c.derivations input).encard = N ∧
      ∀ f, (parseInput ⟨c, limit⟩ input).result = .ok f →
        f.count = .ok (min N Size.max) ∧
        (f.count = .ok 0 ↔ (recognizeInput ⟨c, limit⟩ input).result = .ok false) ∧
        ∀ max, ∃ ts, f.treesUpTo max = .ok ts ∧ ts.length = min max N := by
  obtain ⟨-, hc, -⟩ := Grammar.normalize_mirrors hg hn
  obtain ⟨N, hN⟩ : ∃ N : ℕ, (c.derivations input).encard = N :=
    (NormalGrammar.finite_derivations hc).exists_encard_eq_coe
  refine ⟨parseInput_eq_ok hc, N, hN, fun f hf => ?_⟩
  have hh := holds_of_parseInput hc hf
  have hlen := hh.length_allTrees hc hN
  refine ⟨?_, ?_, fun max => ⟨_, hh.treesUpTo hc max, ?_⟩⟩
  · rw [hh.count hc, hlen]
    rfl
  · obtain ⟨n, hcount, hpos⟩ := hh.count_pos hc
    obtain ⟨b, hb, hiff⟩ := Chart.verdict_spec hc ((parseInput_eq_ok hc).1 ⟨f, hf⟩)
    rw [result_recognizeInput, hcount, hb, Except.ok.injEq, Except.ok.injEq, ← Bool.not_eq_true,
      hiff, ← hpos]
    omega
  · rw [List.length_take, hlen]

/-- A word with two trees, and one with none. -/
theorem count_exact_alternating : Grammar.alternating.Reachable ∧
    Grammar.alternating.normalize.result =
      .ok (Grammar.alternatingResult, Grammar.alternatingSnapshot) ∧
    (∃ f ts, (Grammar.alternatingSnapshot.parse ["a", "a", "a", "a", "a"]).result = .ok f ∧
      f.count = .ok 2 ∧ f.treesUpTo 1 = .ok ts ∧ ts.length = 1) ∧
    ∃ f, (Grammar.alternatingSnapshot.parse ["a", "a"]).result = .ok f ∧ f.count = .ok 0 := by
  obtain ⟨hok, N, hN, hcount⟩ := count_exact Grammar.alternating_reachable
    Grammar.alternating_normalize none alternatingWord
  obtain ⟨hok', M, -, hcount'⟩ := count_exact Grammar.alternating_reachable
    Grammar.alternating_normalize none [some 1, some 1]
  obtain rfl : N = 2 := Nat.cast_inj.1 (hN.symm.trans encard_alternatingWord)
  obtain ⟨f, hf⟩ := hok.2 (by decide)
  obtain ⟨h₂, -, hlist⟩ := hcount f hf
  obtain ⟨ts, hts, hlen⟩ := hlist 1
  obtain ⟨f', hf'⟩ := hok'.2 (by decide)
  obtain ⟨-, hrejected, -⟩ := hcount' f' hf'
  exact ⟨Grammar.alternating_reachable, Grammar.alternating_normalize, ⟨f, ts, hf, h₂, hts, hlen⟩,
    f', hf', hrejected.2 (by decide +kernel)⟩

/-- **A limit leaves the first trees.** All trees are those of the start symbol over the whole
input, reason by reason, and for a pair with the left tree varying slowest. A list up to a limit is
the beginning of this list, and so of the list up to any greater limit. -/
theorem treesUpTo_prefix [DecidableEq α] {g g' : Grammar α} (hg : g.Reachable)
    (hn : g.normalize.result = .ok (g', c)) :
    (∀ (limit : Option Nat) (input : List (Option Nat)),
      ((∃ f, (parseInput ⟨c, limit⟩ input).result = .ok f) ↔ Chart.Countable c input) ∧
      ∀ f, (parseInput ⟨c, limit⟩ input).result = .ok f →
        (∀ row col p, Triangle.Contains input.length row col →
          ∃ ps, f.pointers row col p = .ok ps ∧
            f.allTreesAt row col p = ps.flatMap (f.treesBy row col p)) ∧
        f.allTrees = (if f.isEmpty then [] else f.allTreesAt (input.length - 1) 0 c.start) ∧
        (∀ max, f.treesUpTo max = .ok (f.allTrees.take max)) ∧
        ∀ max max', max ≤ max' → ∃ ts ts', f.treesUpTo max = .ok ts ∧
          f.treesUpTo max' = .ok ts' ∧ ts <+: ts') ∧
    ∀ (names : List α) (f : Forest), (c.parse names).result = .ok f →
      (∀ max, (trees ⟨c, some max⟩ names).result = .ok (f.allTrees.take max)) ∧
      (trees ⟨c, none⟩ names).result = .ok (f.allTrees.take Size.max) := by
  obtain ⟨-, hc, -⟩ := Grammar.normalize_mirrors hg hn
  refine ⟨fun limit input => ⟨parseInput_eq_ok hc, fun f hf => ?_⟩, fun names f hf => ?_⟩
  · have hh := holds_of_parseInput hc hf
    refine ⟨fun row col p h => hh.allTreesAt_eq hc h, hh.allTrees_eq, hh.treesUpTo hc,
      fun max max' hle => ⟨_, _, hh.treesUpTo hc max, hh.treesUpTo hc max', ?_⟩⟩
    exact List.take_prefix_take_left hle
  · have hh : Forest.Holds c (names.map c.index?) f := holds_of_parseInput hc hf
    -- The forest does not depend on the limit.
    have hparse : ∀ limit, (parse ⟨c, limit⟩ names).result = .ok f := fun _ => hf
    constructor
    · intro max
      rw [trees, Trail.bind_of_ok (hparse _)]
      exact hh.treesUpTo hc max
    · rw [trees, Trail.bind_of_ok (hparse _)]
      exact hh.treesUpTo hc Size.max

theorem treesUpTo_prefix_alternating : Grammar.alternating.Reachable ∧
    Grammar.alternating.normalize.result =
      .ok (Grammar.alternatingResult, Grammar.alternatingSnapshot) ∧
    ∃ f, (Grammar.alternatingSnapshot.parse ["a", "a", "a", "a", "a"]).result = .ok f ∧
      (trees ⟨Grammar.alternatingSnapshot, some 1⟩ ["a", "a", "a", "a", "a"]).result =
        .ok (f.allTrees.take 1) ∧
      ∃ ts ts', f.treesUpTo 1 = .ok ts ∧ f.treesUpTo 2 = .ok ts' ∧ ts <+: ts' := by
  obtain ⟨hforest, hnames⟩ :=
    treesUpTo_prefix Grammar.alternating_reachable Grammar.alternating_normalize
  obtain ⟨hok, hlists⟩ := hforest none alternatingWord
  obtain ⟨f, hf⟩ := hok.2 (by decide)
  obtain ⟨-, -, -, hprefix⟩ := hlists f hf
  obtain ⟨hmax, -⟩ := hnames ["a", "a", "a", "a", "a"] f hf
  exact ⟨Grammar.alternating_reachable, Grammar.alternating_normalize, f, hf, hmax 1,
    hprefix 1 2 (by decide)⟩

end Parser

end Chomsky
