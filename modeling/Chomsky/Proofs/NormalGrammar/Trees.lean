import Mathlib.Tactic.Common
import Chomsky.Proofs.NormalGrammar.WellFormed
import Chomsky.Proofs.ParseTree
import Chomsky.Proofs.Triangle

/-!
Parse trees of a normal-form grammar over the spans of an input. A node has one leaf below it, or
two nodes over the two parts of its span.
-/

namespace Chomsky

/-- The positions of a span with the symbols there, where some may not be known. -/
def spanPlaces (input : List (Option Nat)) (row col : Nat) : List (Option Nat × Nat) :=
  ((input.drop col).take (row + 1)).zipIdx col

/-- The leaves of a tree as places of an input. -/
def Tree.inputPlaces (t : Tree) : List (Option Nat × Nat) := t.places.map fun x => (some x.1, x.2)

lemma Tree.inputPlaces_node_leaf (p x k : Nat) :
    (node p [leaf x k]).inputPlaces = [(some x, k)] := rfl

lemma Tree.inputPlaces_node_pair (p : Nat) (l r : Tree) :
    (node p [l, r]).inputPlaces = l.inputPlaces ++ r.inputPlaces := by
  simp [inputPlaces, places_node]

/-- The leaves of a tree are the places of a word of known symbols. -/
lemma Tree.inputPlaces_eq_iff {t : Tree} {w : List Nat} {k : Nat} :
    t.inputPlaces = (w.map some).zipIdx k ↔ t.places = w.zipIdx k := by
  have hzip : (w.map some).zipIdx k = (w.zipIdx k).map fun x => (some x.1, x.2) := by
    rw [List.zipIdx_map]
    rfl
  rw [hzip, inputPlaces, List.map_inj_right]
  intro x y h
  obtain ⟨h₁, h₂⟩ := Prod.mk.inj h
  exact Prod.ext (Option.some.inj h₁) h₂

section SpanPlaces

variable {input : List (Option Nat)} {row col k : Nat}

lemma length_spanPlaces (h : Triangle.Contains input.length row col) :
    (spanPlaces input row col).length = row + 1 := by
  obtain ⟨hrow, hcol⟩ := h
  simp [spanPlaces]
  omega

lemma spanPlaces_zero {x : Option Nat} (h : input[col]? = some x) :
    spanPlaces input 0 col = [(x, col)] := by
  obtain ⟨hcol, rfl⟩ := List.getElem?_eq_some_iff.1 h
  rw [spanPlaces, List.drop_eq_getElem_cons hcol, List.take_succ_cons, List.take_zero]
  rfl

lemma spanPlaces_split (h₁ : 1 ≤ k) (h₂ : k ≤ row)
    (h : Triangle.Contains input.length row col) : spanPlaces input row col =
      spanPlaces input (k - 1) col ++ spanPlaces input (row - k) (col + k) := by
  obtain ⟨hrow, hcol⟩ := h
  have hsum : row + 1 = k + (row - k + 1) := by omega
  have hlen : ((input.drop col).take k).length = k := by simp; omega
  rw [spanPlaces, spanPlaces, spanPlaces, hsum, List.take_add, List.zipIdx_append, hlen,
    List.drop_drop, Nat.sub_add_cancel h₁]

lemma spanPlaces_whole (h : input ≠ []) :
    spanPlaces input (input.length - 1) 0 = input.zipIdx := by
  have hpos : 0 < input.length := List.length_pos_of_ne_nil h
  rw [spanPlaces, Nat.sub_add_cancel hpos, List.drop_zero, List.take_length]

lemma contains_whole (h : input ≠ []) : Triangle.Contains input.length (input.length - 1) 0 := by
  have hpos : 0 < input.length := List.length_pos_of_ne_nil h
  constructor <;> omega

end SpanPlaces

namespace NormalGrammar

variable {α : Type} {c : NormalGrammar α} {p : Nat} {t : Tree}

/-- The tree follows the rules. -/
def Grows (c : NormalGrammar α) (t : Tree) : Prop :=
  t.Follows c.ruleSet (c.isTerminal · = .ok true)

lemma grows_leaf (hc : c.WellFormed) {s k : Nat} :
    c.Grows (.leaf s k) ↔ c.terminals.holds s = true :=
  hc.isTerminal_eq_true

/-- A tree of a terminal is a leaf, because terminals have no rules. -/
lemma Grows.eq_leaf (hc : c.WellFormed) (h : c.Grows t)
    (ht : c.terminals.holds t.symbol = true) : ∃ k, t = .leaf t.symbol k := by
  cases t with
  | leaf s k => exact ⟨k, rfl⟩
  | node s ts =>
    obtain ⟨rule, hr, -⟩ := ruleSet_iff.1 (Tree.follows_node.1 h).1
    have hs := hc.nonterminal_of_mem hr
    simp only [Tree.symbol] at ht
    simp [ht] at hs

/-- **The shape of a node**: one leaf by a rule for its terminal, or two trees by a rule for the
pair of their symbols. -/
lemma grows_node (hc : c.WellFormed) {ts : List Tree} : c.Grows (.node p ts) ↔
    (∃ x k, ts = [.leaf x k] ∧ .terminal x ∈ c.rulesAt p) ∨
      ∃ l r : Tree, ts = [l, r] ∧ .pair l.symbol r.symbol ∈ c.rulesAt p ∧
        c.Grows l ∧ c.Grows r := by
  rw [Grows, Tree.follows_node]
  constructor
  · rintro ⟨hr, hts⟩
    obtain ⟨rule, hrule, hmembers⟩ := ruleSet_iff.1 hr
    cases rule with
    | terminal x =>
      obtain ⟨u, rfl, rfl⟩ := List.map_eq_singleton_iff.1 hmembers.symm
      obtain ⟨k, hk⟩ := (show c.Grows u from hts u List.mem_cons_self).eq_leaf hc
        (hc.terminal_rule p u.symbol hrule)
      exact .inl ⟨u.symbol, k, by rw [← hk], hrule⟩
    | pair l r =>
      obtain ⟨lt, us, rfl, rfl, hus⟩ := List.map_eq_cons_iff.1 hmembers.symm
      obtain ⟨rt, rfl, rfl⟩ := List.map_eq_singleton_iff.1 hus
      exact .inr ⟨lt, rt, rfl, hrule, hts lt (by simp), hts rt (by simp)⟩
  · rintro (⟨x, k, rfl, hrule⟩ | ⟨l, r, rfl, hrule, hl, hr⟩)
    · refine ⟨ruleSet_singleton.2 hrule, fun t ht => ?_⟩
      rw [List.mem_singleton.1 ht]
      exact (grows_leaf hc).2 (hc.terminal_rule p x hrule)
    · refine ⟨ruleSet_pair.2 hrule, fun t ht => ?_⟩
      rcases (by simpa using ht : t = l ∨ t = r) with rfl | rfl
      · exact hl
      · exact hr

lemma Grows.places_ne_nil (hc : c.WellFormed) (h : c.Grows t) : t.places ≠ [] := by
  induction t using Tree.induct with
  | leaf s k => exact List.cons_ne_nil _ _
  | node s ts ih =>
    rw [Tree.places_node]
    obtain ⟨x, k, rfl, -⟩ | ⟨l, r, rfl, -, hl, -⟩ := (grows_node hc).1 h
    · simp [Tree.places]
    · simp [ih l (by simp) hl]

/-- A tree of the non-terminal `p` over a span of the input. -/
structure Spans (c : NormalGrammar α) (input : List (Option Nat)) (row col p : Nat)
    (t : Tree) : Prop where
  symbol : t.symbol = p
  nonterminal : c.terminals.holds p = false
  grows : c.Grows t
  places : t.inputPlaces = spanPlaces input row col

variable {input : List (Option Nat)} {row col : Nat}

lemma spans_terminal (hc : c.WellFormed) {x : Nat} (hx : input[col]? = some (some x))
    (hr : .terminal x ∈ c.rulesAt p) : c.Spans input 0 col p (.node p [.leaf x col]) := by
  refine ⟨rfl, hc.nonterminal_of_mem hr, (grows_node hc).2 (.inl ⟨x, col, rfl, hr⟩), ?_⟩
  rw [spanPlaces_zero hx, Tree.inputPlaces_node_leaf]

lemma spans_pair (hc : c.WellFormed) (h : Triangle.Contains input.length row col) {k l r : Nat}
    {lt rt : Tree} (h₁ : 1 ≤ k) (h₂ : k ≤ row) (hr : .pair l r ∈ c.rulesAt p)
    (hl : c.Spans input (k - 1) col l lt) (hr' : c.Spans input (row - k) (col + k) r rt) :
    c.Spans input row col p (.node p [lt, rt]) := by
  refine ⟨rfl, hc.nonterminal_of_mem hr, (grows_node hc).2 (.inr ⟨lt, rt, rfl, ?_, hl.grows,
    hr'.grows⟩), ?_⟩
  · rwa [hl.symbol, hr'.symbol]
  · rw [spanPlaces_split h₁ h₂ h, ← hl.places, ← hr'.places, Tree.inputPlaces_node_pair]

/-- **Trees over a span** come from a known terminal at its only position, or from trees over both
parts of it. -/
lemma spans_iff (hc : c.WellFormed) (h : Triangle.Contains input.length row col) :
    c.Spans input row col p t ↔
      (∃ x, row = 0 ∧ input[col]? = some (some x) ∧ .terminal x ∈ c.rulesAt p ∧
        t = .node p [.leaf x col]) ∨
      ∃ k l r lt rt, 1 ≤ k ∧ k ≤ row ∧ .pair l r ∈ c.rulesAt p ∧ t = .node p [lt, rt] ∧
        c.Spans input (k - 1) col l lt ∧ c.Spans input (row - k) (col + k) r rt := by
  constructor
  · rintro ⟨hs, hn, hg, hpl⟩
    cases t with
    | leaf s k =>
      obtain rfl : s = p := hs
      simp [(grows_leaf hc).1 hg] at hn
    | node s ts =>
      obtain rfl : s = p := hs
      have hlen := congrArg List.length hpl
      rw [length_spanPlaces h, Tree.inputPlaces, List.length_map, Tree.places_node] at hlen
      obtain ⟨x, k, rfl, hr⟩ | ⟨lt, rt, rfl, hr, hl, hr'⟩ := (grows_node hc).1 hg
      · left
        obtain rfl : row = 0 := by simpa [Tree.places] using hlen.symm
        obtain ⟨y, hy⟩ : ∃ y, input[col]? = some y :=
          ⟨_, List.getElem?_eq_getElem (by have := h.2; omega)⟩
        rw [spanPlaces_zero hy] at hpl
        rw [Tree.inputPlaces_node_leaf, List.singleton_inj] at hpl
        obtain ⟨rfl, rfl⟩ := Prod.mk.inj hpl
        exact ⟨x, rfl, hy, hr, rfl⟩
      · right
        have hlpos := List.length_pos_of_ne_nil (hl.places_ne_nil hc)
        have hrpos := List.length_pos_of_ne_nil (hr'.places_ne_nil hc)
        simp only [List.flatMap_cons, List.flatMap_nil, List.append_nil,
          List.length_append] at hlen
        have h₁ : 1 ≤ lt.places.length := hlpos
        have h₂ : lt.places.length ≤ row := by omega
        have hpair := hc.pair_rule s _ _ hr
        have hpl' : lt.inputPlaces ++ rt.inputPlaces = spanPlaces input row col := by
          rw [← hpl, Tree.inputPlaces_node_pair]
        rw [spanPlaces_split h₁ h₂ h] at hpl'
        obtain ⟨hpl₁, hpl₂⟩ := List.append_inj hpl' (by
          rw [length_spanPlaces (Triangle.contains_left h₁ h₂ h), Tree.inputPlaces,
            List.length_map]
          omega)
        exact ⟨lt.places.length, lt.symbol, rt.symbol, lt, rt, h₁, h₂, hr, rfl,
          ⟨rfl, (hpair _ (by simp)).2, hl, hpl₁⟩, ⟨rfl, (hpair _ (by simp)).2, hr', hpl₂⟩⟩
  · rintro (⟨x, rfl, hx, hr, rfl⟩ | ⟨k, l, r, lt, rt, h₁, h₂, hr, rfl, hl, hr'⟩)
    · exact spans_terminal hc hx hr
    · exact spans_pair hc h h₁ h₂ hr hl hr'

/-- A symbol has a tree over a span if it is a non-terminal and derives the symbols there, all of
which are known. -/
lemma exists_spans_iff (hc : c.WellFormed) : (∃ t, c.Spans input row col p t) ↔
    c.isTerminal p = .ok false ∧
      ∃ w : List Nat, (input.drop col).take (row + 1) = w.map some ∧ c.Derives p w := by
  constructor
  · rintro ⟨t, hs, hn, hg, hpl⟩
    have hrule : ∃ rule, rule ∈ c.rulesAt p := by
      cases t with
      | leaf s k => obtain rfl : s = p := hs; simp [(grows_leaf hc).1 hg] at hn
      | node s ts =>
        obtain rfl : s = p := hs
        obtain ⟨rule, hr, -⟩ := ruleSet_iff.1 (Tree.follows_node.1 hg).1
        exact ⟨rule, hr⟩
    obtain ⟨rule, hr⟩ := hrule
    have hw : (input.drop col).take (row + 1) = (t.places.map (·.1)).map some := by
      have hfst := congrArg (List.map Prod.fst) hpl
      rw [spanPlaces, List.zipIdx_map_fst, Tree.inputPlaces] at hfst
      rw [← hfst, List.map_map, List.map_map]
      rfl
    refine ⟨hc.isTerminal_eq_ok.2 ⟨hc.lt_of_mem_rulesAt hr, hn⟩, _, hw,
      (RuleSet.derives_iff_trees col).2 ⟨t, hs, hg, ?_⟩⟩
    rwa [spanPlaces, hw, Tree.inputPlaces_eq_iff] at hpl
  · rintro ⟨hp, w, hw, hd⟩
    obtain ⟨t, hs, hg, hpl⟩ := (RuleSet.derives_iff_trees col).1 hd
    refine ⟨t, hs, (hc.isTerminal_eq_ok.1 hp).2, hg, ?_⟩
    rwa [spanPlaces, hw, Tree.inputPlaces_eq_iff]

/-- The start symbol has a tree over the whole of an input if it derives it. -/
lemma exists_spans_start_iff (hc : c.WellFormed) (h : input ≠ []) :
    (∃ t, c.Spans input (input.length - 1) 0 c.start t) ↔
      ∃ w : List Nat, input = w.map some ∧ c.Derives c.start w := by
  have hpos : 0 < input.length := List.length_pos_of_ne_nil h
  have hstart : c.isTerminal c.start = .ok false :=
    hc.isTerminal_eq_ok.2 ⟨hc.start_lt, hc.start_nonterminal⟩
  rw [exists_spans_iff hc, and_iff_right hstart, List.drop_zero, Nat.sub_add_cancel hpos,
    List.take_length]

end NormalGrammar

end Chomsky
