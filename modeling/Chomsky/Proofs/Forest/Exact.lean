import Mathlib.Data.Set.Card
import Chomsky.Parser
import Chomsky.Proofs.Forest.Count

/-!
Parsing gives the forest of the input, and its trees are the derivation trees of the input from the
start symbol, each of them once.
-/

namespace Chomsky

variable {α : Type} {c : NormalGrammar α} {input : List (Option Nat)} {t : Tree}

/-- A derivation tree: every node has one leaf by a rule for its terminal, or two nodes by a rule
for the pair of their symbols. -/
inductive NormalGrammar.Derivation (c : NormalGrammar α) : Tree → Prop where
  | terminal {p x k : Nat} (h : c.hasRule p (.terminal x) = .ok true) :
    Derivation c (.node p [.leaf x k])
  | pair {p l r : Nat} {ls rs : List Tree} (h : c.hasRule p (.pair l r) = .ok true)
    (hl : Derivation c (.node l ls)) (hr : Derivation c (.node r rs)) :
    Derivation c (.node p [.node l ls, .node r rs])

/-- The derivation trees of an input from the start symbol. Their leaves are the input with its
positions from left to right, and every symbol of it is known. -/
def NormalGrammar.derivations (c : NormalGrammar α) (input : List (Option Nat)) : Set Tree :=
  {t | t.symbol = c.start ∧ c.Derivation t ∧
    t.places.map (fun x => (some x.1, x.2)) = input.zipIdx}

namespace NormalGrammar

lemma derivation_iff (hc : c.WellFormed) :
    c.Derivation t ↔ c.Grows t ∧ c.terminals.holds t.symbol = false := by
  constructor
  · intro h
    induction h with
    | terminal h =>
      have hr := hasRule_eq_ok.1 h
      exact ⟨(grows_node hc).2 (.inl ⟨_, _, rfl, hr⟩), hc.nonterminal_of_mem hr⟩
    | pair h _ _ ihl ihr =>
      have hr := hasRule_eq_ok.1 h
      exact ⟨(grows_node hc).2 (.inr ⟨_, _, rfl, hr, ihl.1, ihr.1⟩), hc.nonterminal_of_mem hr⟩
  · rintro ⟨hg, hn⟩
    induction t using Tree.induct with
    | leaf s k => simp [Tree.symbol, (grows_leaf hc).1 hg] at hn
    | node p ts ih =>
      obtain ⟨x, k, rfl, hr⟩ | ⟨lt, rt, rfl, hr, hl, hr'⟩ := (grows_node hc).1 hg
      · exact .terminal (hasRule_eq_ok.2 hr)
      · have hpair := hc.pair_rule p _ _ hr
        have hl := ih lt (by simp) hl (hpair _ (by simp)).2
        have hr' := ih rt (by simp) hr' (hpair _ (by simp)).2
        cases lt with
        | leaf s k => cases hl
        | node l ls =>
          cases rt with
          | leaf s k => cases hr'
          | node r rs => exact .pair (hasRule_eq_ok.2 hr) hl hr'

/-- The derivation trees of an input are the trees over its whole span. -/
lemma mem_derivations (hc : c.WellFormed) : t ∈ c.derivations input ↔
    input ≠ [] ∧ c.Spans input (input.length - 1) 0 c.start t := by
  constructor
  · rintro ⟨hs, hd, hpl⟩
    obtain ⟨hg, hn⟩ := (derivation_iff hc).1 hd
    have hne : input ≠ [] := by
      rintro rfl
      exact hg.places_ne_nil hc (List.map_eq_nil_iff.1 hpl)
    exact ⟨hne, hs, hs ▸ hn, hg, hpl.trans (spanPlaces_whole hne).symm⟩
  · rintro ⟨hne, hs, hn, hg, hpl⟩
    exact ⟨hs, (derivation_iff hc).2 ⟨hg, hs ▸ hn⟩, hpl.trans (spanPlaces_whole hne)⟩

end NormalGrammar

lemma encard_of_list {β : Type} {s : Set β} {xs : List β} (hn : xs.Nodup)
    (h : ∀ x, x ∈ xs ↔ x ∈ s) : s.encard = xs.length := by
  classical
  have hs : s = (xs.toFinset : Set β) := by
    ext x
    simp [h]
  rw [hs, Set.encard_coe_eq_coe_finsetCard, List.toFinset_card_of_nodup hn]

lemma Forest.Holds.encard_derivations {f : Forest} (hf : Holds c input f) (hc : c.WellFormed) :
    (c.derivations input).encard = f.allTrees.length :=
  encard_of_list (hf.nodup_allTrees hc) fun t => by
    rw [hf.mem_allTrees hc, NormalGrammar.mem_derivations hc]

lemma Forest.Holds.length_allTrees {f : Forest} (hf : Holds c input f) (hc : c.WellFormed) {N : ℕ}
    (hN : (c.derivations input).encard = N) : f.allTrees.length = N :=
  Nat.cast_inj.1 ((hf.encard_derivations hc).symm.trans hN)

namespace Parser

variable {limit : Option Nat}

/-- The chart and the entries that a parse starts from. -/
lemma ofInput_spec (hc : c.WellFormed) (h : Chart.Countable c input) :
    ∃ t, (Chart.ofInput c input).result = .ok (t, Search.entries c input) ∧
      Chart.Matches c input t := by
  obtain ⟨t, ht, hm⟩ := Chart.fill_eq hc h
  refine ⟨t, ?_, hm⟩
  rw [Chart.ofInput, ht, Trail.bind_eq_ok]
  exact ⟨t, rfl, by rw [Trail.record_bind_eq_ok]; rfl⟩

lemma ofInput_eq_ok (hc : c.WellFormed) :
    (∃ x, (Chart.ofInput c input).result = .ok x) ↔ Chart.Countable c input := by
  constructor
  · rintro ⟨_, hinput⟩
    rw [Chart.ofInput, Trail.bind_eq_ok] at hinput
    obtain ⟨t, ht, -⟩ := hinput
    exact (Chart.fill_eq_ok hc).1 ⟨t, ht⟩
  · intro h
    obtain ⟨t, ht, -⟩ := ofInput_spec hc h
    exact ⟨_, ht⟩

/-- Nothing breaks off after the chart is filled. -/
lemma ofInput_eq_error {e : Fault} :
    (Chart.ofInput c input).result = .error e ↔ (Chart.fill c input).result = .error e := by
  rw [Chart.ofInput, Trail.bind_eq_error]
  refine or_iff_left ?_
  rintro ⟨t, -, h⟩
  cases h

/-- Parsing gives the forest of the plain search. -/
lemma parseInput_spec (hc : c.WellFormed) (h : Chart.Countable c input) :
    ∃ f, (parseInput ⟨c, limit⟩ input).result = .ok f ∧ Forest.Holds c input f := by
  obtain ⟨t, hinput, hm⟩ := ofInput_spec hc h
  obtain ⟨f, hf, hh⟩ := Forest.ofChart_spec hc hm h.cells
  refine ⟨f, ?_, hh⟩
  rw [parseInput, Trail.bind_eq_ok]
  refine ⟨_, hinput, ?_⟩
  rw [Trail.bind_eq_ok]
  exact ⟨f, hf, by rw [Trail.record_bind_eq_ok]; rfl⟩

lemma parseInput_eq_ok (hc : c.WellFormed) :
    (∃ f, (parseInput ⟨c, limit⟩ input).result = .ok f) ↔ Chart.Countable c input := by
  constructor
  · rintro ⟨f, hf⟩
    rw [parseInput, Trail.bind_eq_ok] at hf
    obtain ⟨_, hinput, -⟩ := hf
    exact (ofInput_eq_ok hc).1 ⟨_, hinput⟩
  · intro h
    obtain ⟨f, hf, -⟩ := parseInput_spec hc h
    exact ⟨f, hf⟩

lemma holds_of_parseInput (hc : c.WellFormed) {f : Forest}
    (h : (parseInput ⟨c, limit⟩ input).result = .ok f) : Forest.Holds c input f := by
  obtain ⟨f', hf', hh⟩ : ∃ f', (parseInput ⟨c, limit⟩ input).result = .ok f' ∧
      Forest.Holds c input f' := parseInput_spec hc ((parseInput_eq_ok hc).1 ⟨f, h⟩)
  obtain rfl : f' = f := Except.ok.inj (hf'.symm.trans h)
  exact hh

/-- **The forest holds exactly the derivation trees.** There is a forest just where the cells and
the entries of the chart can be counted. If the input has fewer trees than the greatest size, all of
them are listed, none of them twice, and nothing else. -/
theorem trees_exact [DecidableEq α] {g g' : Grammar α} (hg : g.Reachable)
    (hn : g.normalize.result = .ok (g', c)) (input : List (Option Nat)) :
    ((∃ f, (parseInput ⟨c, none⟩ input).result = .ok f) ↔ Chart.Countable c input) ∧
    ∀ f, (parseInput ⟨c, none⟩ input).result = .ok f →
      (c.derivations input).encard < Size.max →
        ∃ ts, f.trees = .ok ts ∧ ts.Nodup ∧ ∀ t, t ∈ ts ↔ t ∈ c.derivations input := by
  obtain ⟨-, hc, -⟩ := Grammar.normalize_mirrors hg hn
  refine ⟨parseInput_eq_ok hc, fun f hf hlt => ?_⟩
  have hh := holds_of_parseInput hc hf
  refine ⟨f.allTrees, ?_, hh.nodup_allTrees hc, fun t => ?_⟩
  · rw [hh.encard_derivations hc, Nat.cast_lt] at hlt
    rw [Forest.trees, hh.treesUpTo hc, List.take_of_length_le (Nat.le_of_lt hlt)]
  · rw [hh.mem_allTrees hc, NormalGrammar.mem_derivations hc]

/-- A word with two trees. -/
def alternatingWord : List (Option Nat) := [some 1, some 1, some 1, some 1, some 1]

lemma encard_alternatingWord :
    (Grammar.alternatingSnapshot.derivations alternatingWord).encard = 2 := by
  obtain ⟨-, hc, -⟩ :=
    Grammar.normalize_mirrors Grammar.alternating_reachable Grammar.alternating_normalize
  have hrun : ((parseInput ⟨Grammar.alternatingSnapshot, none⟩ alternatingWord).result >>=
      Forest.count) = .ok 2 := by decide +kernel
  obtain ⟨f, hf, hcount⟩ := except_bind_eq_ok.1 hrun
  have hh := holds_of_parseInput hc hf
  rw [hh.count hc] at hcount
  have hlen : f.allTrees.length = 2 := by
    have hcap : min f.allTrees.length Size.max = 2 := Except.ok.inj hcount
    have hmax : 2 < Size.max := by decide
    omega
  rw [hh.encard_derivations hc, hlen]
  rfl

theorem trees_exact_alternating : Grammar.alternating.Reachable ∧
    Grammar.alternating.normalize.result =
      .ok (Grammar.alternatingResult, Grammar.alternatingSnapshot) ∧
    (Grammar.alternatingSnapshot.derivations alternatingWord).encard < Size.max ∧
    ∃ f ts, (parseInput ⟨Grammar.alternatingSnapshot, none⟩ alternatingWord).result = .ok f ∧
      f.trees = .ok ts ∧ ts.Nodup ∧
        ∀ t, t ∈ ts ↔ t ∈ Grammar.alternatingSnapshot.derivations alternatingWord := by
  have hlt : (Grammar.alternatingSnapshot.derivations alternatingWord).encard < Size.max := by
    rw [encard_alternatingWord]
    exact_mod_cast (by decide : 2 < Size.max)
  obtain ⟨hok, hexact⟩ := trees_exact Grammar.alternating_reachable
    Grammar.alternating_normalize alternatingWord
  obtain ⟨f, hf⟩ := hok.2 (by decide)
  obtain ⟨ts, hts⟩ := hexact f hf hlt
  exact ⟨Grammar.alternating_reachable, Grammar.alternating_normalize, hlt, f, ts, hf, hts⟩

end Parser

end Chomsky
