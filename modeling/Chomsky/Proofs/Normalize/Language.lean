import Chomsky.Proofs.Normalize.Shape
import Chomsky.Proofs.Normalize.UnitRules

/-!
Normalisation keeps the language of every symbol. Each step keeps it: the new start has one unit
rule, foldings keep the trees, and inlining replaces chains of unit rules by what they lead to.
-/

namespace Chomsky.Grammar

open Relation

variable {α : Type} {g g' : Grammar α} {p : Nat}

/-- The symbols of `g` derive the same words in `g'`, and so do the two starts. -/
structure SameLanguage (g g' : Grammar α) : Prop where
  length_le : g.symbols.length ≤ g'.symbols.length
  derives : ∀ p < g.symbols.length, ∀ w, g'.Derives p w ↔ g.Derives p w
  start : ∀ w, g'.Derives g'.start w ↔ g.Derives g.start w

lemma SameLanguage.refl (g : Grammar α) : g.SameLanguage g :=
  ⟨Nat.le_refl _, fun _ _ _ => Iff.rfl, fun _ => Iff.rfl⟩

lemma SameLanguage.trans {g'' : Grammar α} (h : g.SameLanguage g') (h' : g'.SameLanguage g'') :
    g.SameLanguage g'' where
  length_le := h.length_le.trans h'.length_le
  derives p hp w := (h'.derives p (hp.trans_le h.length_le) w).trans (h.derives p hp w)
  start w := (h'.start w).trans (h.start w)

/-! ### The first three steps -/

lemma Crowns.sameLanguage (h : g.Crowns g') (hw : g.WellFormed) : g.SameLanguage g' where
  length_le := by rw [h.length]; exact Nat.le_succ _
  derives p hp w := by rw [derives_iff, derives_iff, h.treesOf_of_lt hw hp]
  start w := by rw [derives_iff, derives_iff, h.treesOf_start hw, Set.image_nonempty]

lemma Folds.sameLanguage (h : g.Folds g') (hw : g.WellFormed) (hw' : g'.WellFormed) :
    g.SameLanguage g' := by
  have hd : ∀ p < g.symbols.length, ∀ w, g'.Derives p w ↔ g.Derives p w := fun p hp w => by
    rw [derives_iff, derives_iff, ← Set.encard_ne_zero, ← Set.encard_ne_zero,
      h.encard_treesOf hw hw' hp]
  exact ⟨h.length_le, hd, fun w => h.start ▸ hd g.start hw.start_lt w⟩

/-! ### Inlining -/

lemma produces_of_unitSteps {q : Nat} (h : ReflTransGen g.UnitStep p q) :
    ReflTransGen g.ruleSet.Produces [p] [q] := by
  induction h with
  | refl => exact .refl
  | tail _ hs ih => exact ih.tail (by simpa using RuleSet.Produces.replace [] [] hs.1)

lemma produces_of_properRule {r : List Nat} (h : g.ProperRule p r) :
    ReflTransGen g.ruleSet.Produces [p] r := by
  obtain ⟨q, hq, hr, -⟩ := h
  exact (produces_of_unitSteps hq).tail (by simpa using RuleSet.Produces.replace [] [] hr)

/-- A step with a proper rule is a chain of steps along unit rules and one more. -/
lemma derives_of_settled (hterm : ∀ i, g'.isTerminal i = g.isTerminal i)
    (hrules : ∀ p r, r ∈ g'.rules p → g.ProperRule p r) {w : List Nat} (h : g'.Derives p w) :
    g.Derives p w := by
  obtain ⟨hd, hw⟩ := h
  refine ⟨?_, fun t ht => (hterm t).symm.trans (hw t ht)⟩
  have hstep : ∀ p r, g'.ruleSet p r →
      ReflTransGen g.ruleSet.Produces [p] (r.flatMap fun i => [i]) := fun p r hr => by
    rw [List.flatMap_singleton']
    exact produces_of_properRule (hrules p r hr)
  simpa using RuleSet.produces_standFor hstep hd

/-- The node of a unit rule gives way to the node below it, under its own symbol. -/
lemma exists_settled_tree (hterm : ∀ i, g'.isTerminal i = g.isTerminal i)
    (hrules : ∀ p r, g.ProperRule p r → r ∈ g'.rules p) {t : Tree}
    (ht : g.Grows t) : ∃ t' : Tree, t'.symbol = t.symbol ∧ g'.Grows t' ∧ t'.places = t.places ∧
      ∀ s ts, t' = .node s ts → g.ProperRule s (ts.map Tree.symbol) := by
  induction t using Tree.induct with
  | leaf s p => exact ⟨.leaf s p, rfl, (hterm s).trans ht, rfl, nofun⟩
  | node s ts ih =>
    obtain ⟨hr, hts⟩ := grows_node.1 ht
    cases hu : g.isUnitRule (ts.map Tree.symbol) with
    | false =>
      obtain ⟨ts', hss, hfs, hpls⟩ := Tree.exists_list fun t htm => by
        obtain ⟨t', hs, hf, hpl, -⟩ := ih t htm (hts t htm)
        exact ⟨t', hs, hf, hpl⟩
      have hproper : g.ProperRule s (ts'.map Tree.symbol) := hss ▸ ⟨s, .refl, hr, hu⟩
      refine ⟨.node s ts', rfl, grows_node.2 ⟨hrules s _ hproper, hfs⟩, ?_, ?_⟩
      · rw [Tree.places_node, Tree.places_node, hpls]
      · rintro _ _ ⟨⟩
        exact hproper
    | true =>
      obtain ⟨m, hm, hmt⟩ := isUnitRule_iff.1 hu
      obtain ⟨t, rfl, rfl⟩ := List.map_eq_singleton_iff.1 hm
      obtain ⟨t', hs, hf, hpl, hproper⟩ := ih t (by simp) (hts t (by simp))
      cases t' with
      | leaf s' p =>
        have hleaf : g'.isTerminal s' = true := hf
        rw [hterm, show s' = t.symbol from hs, hmt] at hleaf
        cases hleaf
      | node s' us =>
        obtain ⟨q, hq, hrq, huq⟩ := hproper s' us rfl
        obtain rfl : s' = t.symbol := hs
        have hstep : g.UnitStep s t.symbol := ⟨hr, hmt⟩
        have hproper : g.ProperRule s (us.map Tree.symbol) := ⟨q, .head hstep hq, hrq, huq⟩
        refine ⟨.node s us, rfl, grows_node.2 ⟨hrules s _ hproper, ?_⟩, ?_, ?_⟩
        · exact (grows_node.1 hf).2
        · rw [Tree.places_node, Tree.places_node, List.flatMap_singleton, ← hpl, Tree.places_node]
        · rintro _ _ ⟨⟩
          exact hproper

lemma inlineUnits_sameLanguage [DecidableEq α] (hw : g.WellFormed)
    (h : g.inlineUnits.result = .ok g') : g.SameLanguage g' := by
  obtain ⟨hsame, -⟩ := inlineUnits_spec hw h
  have hmem : ∀ p r, r ∈ g'.rules p ↔ g.ProperRule p r := fun p r => mem_rules_inlineUnits hw h
  have hd : ∀ p w, g'.Derives p w ↔ g.Derives p w := by
    refine fun p w => ⟨derives_of_settled hsame.isTerminal fun p r => (hmem p r).1, fun hg => ?_⟩
    obtain ⟨t, hs, ht, hpl⟩ := derives_iff.1 hg
    obtain ⟨t', hs', ht', hpl', -⟩ :=
      exists_settled_tree hsame.isTerminal (fun p r => (hmem p r).2) ht
    exact derives_iff.2 ⟨t', hs'.trans hs, ht', hpl'.trans hpl⟩
  exact ⟨hsame.length.ge, fun p _ => hd p, fun w => hsame.start ▸ hd g'.start w⟩

/-! ### Passes -/

variable [DecidableEq α]

lemma pass_sameLanguage (hw : g.WellFormed) (h : g.pass.result = .ok g') : g.SameLanguage g' := by
  obtain ⟨g₁, g₂, hp⟩ := pass_spec hw h
  have hsame₁ : g.SameLanguage g₁ := by
    obtain ⟨-, rfl⟩ | ⟨-, hc, -⟩ := isolateStart_spec hp.isolate
    · exact .refl g₁
    · exact hc.sameLanguage hw
  have hsame₂ := hp.folds.sameLanguage hp.isolated hp.folded
  exact (hsame₁.trans hsame₂).trans (inlineUnits_sameLanguage hp.folded hp.inline)

lemma normalize_sameLanguage {c : NormalGrammar α} (hw : g.WellFormed)
    (hn : g.normalize.result = .ok (g', c)) : g.SameLanguage g' :=
  normalize_keeps_of_wellFormed g.SameLanguage
    (fun _ _ hw₁ hsame hp => hsame.trans (pass_sameLanguage hw₁ hp)) hw (.refl g) hn

/-- **Normalisation keeps the language** of every symbol, and the start symbol derives what the
start symbol derived before. -/
theorem normalize_derives_iff {c : NormalGrammar α} (hg : g.Reachable)
    (hn : g.normalize.result = .ok (g', c)) :
    (∀ p < g.symbols.length, ∀ w, g'.Derives p w ↔ g.Derives p w) ∧
      ∀ w, g'.Derives g'.start w ↔ g.Derives g.start w := by
  have hsame := normalize_sameLanguage hg.wellFormed hn
  exact ⟨hsame.derives, hsame.start⟩

theorem normalize_derives_iff_alternating : alternating.Reachable ∧
    alternating.normalize.result = .ok (alternatingResult, alternatingSnapshot) ∧
      (∀ p < 2, ∀ w, alternatingResult.Derives p w ↔ alternating.Derives p w) ∧
        ∀ w, alternatingResult.Derives 2 w ↔ alternating.Derives 0 w :=
  ⟨alternating_reachable, alternating_normalize,
    normalize_derives_iff alternating_reachable alternating_normalize⟩

end Chomsky.Grammar
