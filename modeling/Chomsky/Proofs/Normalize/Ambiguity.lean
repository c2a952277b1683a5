import Chomsky.Proofs.Normalize.Shape
import Chomsky.Proofs.Normalize.UnitRules

/-!
Without unit rules, normalisation keeps the number of trees. The only unit rule that comes up is
the one of a new start symbol, and inlining it gives the new start the rules of the old one.
-/

namespace Chomsky.Grammar

open Relation

variable {α : Type} {g g' : Grammar α} {p q : Nat} {r : List Nat}

/-- A rule with one member has a terminal as its member. -/
def UnitFree (g : Grammar α) : Prop := ∀ p m, [m] ∈ g.rules p → g.isTerminal m = true

/-- A folding makes no unit rules. -/
lemma Folds.unit_mem {m : Nat} (h : g.Folds g') (hm : [m] ∈ g'.rules p) :
    [m] ∈ g.rules p ∨ g'.isTerminal m = true := by
  obtain ⟨u, hu⟩ := h
  rcases Nat.lt_or_ge p g.symbols.length with hp | hp
  · exact .inl ((hu.single p hp m).1 hm)
  · obtain ⟨b, hb, -, hsingle⟩ := hu.fresh p hp (lt_of_mem_rules hm)
    rw [hb, List.mem_singleton] at hm
    exact .inr ((hu.isTerminal m).trans (hsingle m hm.symm))

lemma Folds.unitFree (h : g.Folds g') (hu : g.UnitFree) : g'.UnitFree := fun p m hm =>
  (h.unit_mem hm).elim (fun hm => (h.isTerminal m).trans (hu p m hm)) id

/-- The tree with another symbol at its root. -/
def relabel (q : Nat) : Tree → Tree
  | .leaf s k => .leaf s k
  | .node _ ts => .node q ts

lemma relabel_mem_treesOf (hrules : ∀ r ∈ g.rules p, r ∈ g.rules q)
    (hp : g.isTerminal p = false) {places : List (Nat × Nat)} {t : Tree}
    (ht : t ∈ g.treesOf p places) : relabel q t ∈ g.treesOf q places ∧
      relabel p (relabel q t) = t := by
  obtain ⟨hs, hf, hpl⟩ := ht
  cases t with
  | leaf s k =>
    have hleaf : g.isTerminal s = true := hf
    rw [show s = p from hs, hp] at hleaf
    cases hleaf
  | node s ts =>
    obtain rfl : s = p := hs
    obtain ⟨hr, hts⟩ := grows_node.1 hf
    exact ⟨⟨rfl, grows_node.2 ⟨hrules _ hr, hts⟩, hpl⟩, rfl⟩

/-- Non-terminals with the same rules have as many trees. -/
lemma encard_treesOf_of_same_rules (hrules : ∀ r, r ∈ g.rules p ↔ r ∈ g.rules q)
    (hp : g.isTerminal p = false) (hq : g.isTerminal q = false) (places : List (Nat × Nat)) :
    (g.treesOf p places).encard = (g.treesOf q places).encard := by
  have hpq : ∀ t ∈ g.treesOf p places, _ := fun t =>
    relabel_mem_treesOf (fun r => (hrules r).1) hp
  have hqp : ∀ t ∈ g.treesOf q places, _ := fun t =>
    relabel_mem_treesOf (fun r => (hrules r).2) hq
  have hinj : Set.InjOn (relabel q) (g.treesOf p places) := fun t ht t' ht' he => by
    rw [← (hpq t ht).2, ← (hpq t' ht').2, he]
  have himage : relabel q '' g.treesOf p places = g.treesOf q places := by
    ext t
    constructor
    · rintro ⟨u, hu, rfl⟩
      exact (hpq u hu).1
    · exact fun ht => ⟨relabel p t, (hqp t ht).1, (hqp t ht).2⟩
  rw [← himage, hinj.encard_image]

/-! ### Inlining -/

section Inline

variable [DecidableEq α]

lemma inlineUnits_unitFree (hw : g.WellFormed) (h : g.inlineUnits.result = .ok g') :
    g'.UnitFree := fun p m hm => by
  by_contra ht
  have := isUnitRule_inlineUnits hw h hm
  rw [isUnitRule, Bool.not_eq_false'] at this
  exact ht this

lemma inlineUnits_encard (hw : g.WellFormed) (hu : g.UnitFree)
    (h : g.inlineUnits.result = .ok g') (places : List (Nat × Nat)) :
    (g'.treesOf g'.start places).encard = (g.treesOf g.start places).encard := by
  obtain ⟨hsame, -⟩ := inlineUnits_spec hw h
  have hrules : ∀ p r, r ∈ g'.rules p ↔ r ∈ g.rules p := fun p r =>
    (mem_rules_inlineUnits hw h).trans (properRule_iff_of_unitFree_at (hu p))
  rw [hsame.start, treesOf_congr (P := fun _ => True) hsame.isTerminal (fun p _ => hrules p)
    (fun _ _ _ _ _ _ => trivial) trivial]

/-- The start symbol `n` has the unit rule to `q` as its only rule and occurs nowhere. Then it takes
over the rules of `q`, and nothing else changes. -/
lemma inlineUnits_encard_of_crown (hw : g.WellFormed) (hq : g.isTerminal q = false)
    (hqn : q ≠ g.start) (hn : g.rules g.start = [[q]]) (hocc : ¬g.Occurs g.start)
    (hu : ∀ p ≠ g.start, ∀ m, [m] ∈ g.rules p → g.isTerminal m = true)
    (h : g.inlineUnits.result = .ok g') (places : List (Nat × Nat)) :
    (g'.treesOf g'.start places).encard = (g.treesOf q places).encard := by
  obtain ⟨hsame, -⟩ := inlineUnits_spec hw h
  have hother : ∀ p ≠ g.start, ∀ r, r ∈ g'.rules p ↔ r ∈ g.rules p := fun p hp r =>
    (mem_rules_inlineUnits hw h).trans (properRule_iff_of_unitFree_at (hu p hp))
  have hstart : ∀ r, r ∈ g'.rules g.start ↔ r ∈ g'.rules q := by
    intro r
    rw [mem_rules_inlineUnits hw h, mem_rules_inlineUnits hw h, properRule_iff_of_unit hn hq]
  have hmem : ∀ p ≠ g.start, ∀ r ∈ g.rules p, ∀ m ∈ r, m ≠ g.start := fun p _ r hr m hm he =>
    hocc ⟨p, r, hr, he ▸ hm⟩
  rw [hsame.start, encard_treesOf_of_same_rules hstart
    ((hsame.isTerminal _).trans hw.start_nonterminal) ((hsame.isTerminal q).trans hq),
    treesOf_congr hsame.isTerminal hother hmem hqn]

/-! ### Passes -/

omit [DecidableEq α] in
/-- What a folding leaves of a new start symbol. -/
lemma Folds.crown {g₀ : Grammar α} (hw₀ : g₀.WellFormed) (hw : g.WellFormed)
    (hc : g₀.Crowns g) (h : g.Folds g') :
    g'.rules g'.start = [[g₀.start]] ∧ ¬g'.Occurs g'.start := by
  obtain ⟨u, hu⟩ := h
  rw [hu.start]
  constructor
  · have hperm := (hu.rules g.start hw.start_lt).length_eq
    rw [List.length_map, hc.rules_start, List.length_singleton,
      List.length_eq_one_iff] at hperm
    obtain ⟨b, hb⟩ := hperm
    have hmem : [g₀.start] ∈ g'.rules g.start := (hu.single g.start hw.start_lt _).2 (by
      rw [hc.rules_start]
      exact List.mem_singleton_self _)
    rw [hb, List.mem_singleton] at hmem
    rw [hb, hmem]
  · exact fun ho => hc.not_occurs_start hw₀ (hu.occurs _ hw.start_lt hw.start_nonterminal ho)

lemma pass_encard (hw : g.WellFormed) (hu : g.UnitFree) (h : g.pass.result = .ok g')
    (places : List (Nat × Nat)) :
    (g'.treesOf g'.start places).encard = (g.treesOf g.start places).encard := by
  obtain ⟨g₁, g₂, hp⟩ := pass_spec hw h
  have hw₁ := hp.isolated
  have hw₂ := hp.folded
  have hfold := hp.folds
  obtain ⟨-, rfl⟩ | ⟨-, hc, -⟩ := isolateStart_spec hp.isolate
  · rw [inlineUnits_encard hw₂ (hfold.unitFree hu) hp.inline, hfold.start,
      hfold.encard_treesOf hw₁ hw₂ hw₁.start_lt]
  · obtain ⟨hrules, hocc⟩ := hfold.crown hw hw₁ hc
    have hlt : g.start < g₁.symbols.length := by
      have := hw.start_lt
      rw [hc.length]
      omega
    have hne : g.start ≠ g₂.start := by
      rw [hfold.start, hc.start]
      exact Nat.ne_of_lt hw.start_lt
    have hnonterminal : g₂.isTerminal g.start = false := by
      rw [hfold.isTerminal, hc.isTerminal]
      exact hw.start_nonterminal
    have hunit : ∀ p ≠ g₂.start, ∀ m, [m] ∈ g₂.rules p → g₂.isTerminal m = true := by
      intro p hpne m hm
      rcases hfold.unit_mem hm with hm | hm
      · rw [hfold.start, hc.start] at hpne
        rw [hc.rules, if_neg hpne] at hm
        rw [hfold.isTerminal, hc.isTerminal]
        exact hu p m hm
      · exact hm
    rw [inlineUnits_encard_of_crown hw₂ hnonterminal hne hrules hocc hunit hp.inline,
      hfold.encard_treesOf hw₁ hw₂ hlt, hc.treesOf_of_lt hw hw.start_lt]

lemma pass_unitFree (hw : g.WellFormed) (h : g.pass.result = .ok g') : g'.UnitFree := by
  obtain ⟨g₁, g₂, hp⟩ := pass_spec hw h
  exact inlineUnits_unitFree hp.folded hp.inline

/-- Normalisation keeps the number of trees over given leaves. -/
lemma normalize_encard {c : NormalGrammar α} (hw : g.WellFormed) (hu : g.UnitFree)
    (hn : g.normalize.result = .ok (g', c)) (places : List (Nat × Nat)) :
    (g'.treesOf g'.start places).encard = (g.treesOf g.start places).encard := by
  have hkeep := normalize_keeps_of_wellFormed
    (fun g₁ => g₁.UnitFree ∧
      (g₁.treesOf g₁.start places).encard = (g.treesOf g.start places).encard)
    (fun g₁ g₂ hw₁ h₁ hp =>
      ⟨pass_unitFree hw₁ hp, (pass_encard hw₁ h₁.1 hp places).trans h₁.2⟩) hw ⟨hu, rfl⟩ hn
  exact hkeep.2

end Inline

end Chomsky.Grammar
