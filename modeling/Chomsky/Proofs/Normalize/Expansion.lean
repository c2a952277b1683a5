import Chomsky.Proofs.Expansion
import Chomsky.Proofs.Normalize.Once

/-!
What normalisation does to the rules. Unfolding the symbols made for parts of rules gives back, for
every non-terminal that was there and for the start, exactly the rules that it had or could reach
through unit rules, the unit rules themselves apart.
-/

namespace Chomsky.Grammar

open Relation

variable {α : Type} {g g' : Grammar α} {h : Nat → List Nat} {p q i n : Nat} {r u : List Nat}

/-! ### Proper rules of related grammars -/

lemma lt_of_unitSteps (hw : g.WellFormed) (hp : p < g.symbols.length)
    (hq : ReflTransGen g.UnitStep p q) : q < g.symbols.length := by
  induction hq with
  | refl => exact hp
  | tail _ hs _ => exact hs.lt hw

/-- Grammars with the same unit rules for the symbols of `g` reach the same from them. -/
lemma unitSteps_iff (hw : g.WellFormed)
    (hstep : ∀ p < g.symbols.length, ∀ q, g'.UnitStep p q ↔ g.UnitStep p q)
    (hp : p < g.symbols.length) :
    ReflTransGen g'.UnitStep p q ↔ ReflTransGen g.UnitStep p q := by
  constructor
  · intro hq
    induction hq with
    | refl => exact .refl
    | tail _ hs ih => exact ih.tail ((hstep _ (lt_of_unitSteps hw hp ih) _).1 hs)
  · intro hq
    induction hq with
    | refl => exact .refl
    | tail hb hs ih => exact ih.tail ((hstep _ (lt_of_unitSteps hw hp hb) _).2 hs)

namespace Crowns

lemma properRule_of_lt (hc : g.Crowns g') (hw : g.WellFormed) (hp : p < g.symbols.length) :
    g'.ProperRule p u ↔ g.ProperRule p u := by
  have hstep : ∀ p < g.symbols.length, ∀ q, g'.UnitStep p q ↔ g.UnitStep p q := fun p hp q => by
    rw [UnitStep, UnitStep, hc.rules_of_lt hp, hc.isTerminal]
  have hunit : g'.isUnitRule u = g.isUnitRule u := by
    rw [Bool.eq_iff_iff, isUnitRule_iff, isUnitRule_iff]
    simp only [hc.isTerminal]
  unfold ProperRule
  refine exists_congr fun q => ?_
  rw [unitSteps_iff hw hstep hp, hunit]
  refine and_congr_right fun hq => ?_
  rw [hc.rules_of_lt (lt_of_unitSteps hw hp hq)]

lemma properRule_start (hc : g.Crowns g') (hw : g.WellFormed) :
    g'.ProperRule g'.start u ↔ g.ProperRule g.start u := by
  have hterm : g'.isTerminal g.start = false := (hc.isTerminal _).trans hw.start_nonterminal
  rw [properRule_iff_of_unit hc.rules_start hterm, hc.properRule_of_lt hw hw.start_lt]

end Crowns

section Isolate

variable [DecidableEq α]

/-- The only symbol made is the new start. -/
lemma isolateStart_new (h : g.isolateStart.result = .ok g') :
    g.symbols.length ≤ g'.symbols.length ∧
      ∀ i, g.symbols.length ≤ i → i < g'.symbols.length → i = g'.start := by
  obtain ⟨-, rfl⟩ | ⟨-, hc, -⟩ := isolateStart_spec h
  · exact ⟨Nat.le_refl _, fun i hge hlt => absurd hlt (Nat.not_lt.2 hge)⟩
  · have hlen := hc.length
    have hstart := hc.start
    exact ⟨by omega, fun i hge hlt => by omega⟩

lemma isolateStart_properRule (hw : g.WellFormed) (h : g.isolateStart.result = .ok g') :
    (∀ p < g.symbols.length, ∀ u, g'.ProperRule p u ↔ g.ProperRule p u) ∧
      ∀ u, g'.ProperRule g'.start u ↔ g.ProperRule g.start u := by
  obtain ⟨-, rfl⟩ | ⟨-, hc, -⟩ := isolateStart_spec h
  · exact ⟨fun _ _ _ => Iff.rfl, fun _ => Iff.rfl⟩
  · exact ⟨fun p hp u => hc.properRule_of_lt hw hp, fun u => hc.properRule_start hw⟩

end Isolate

namespace Folding

variable (hF : g.Folding g' h) (hw : g.WellFormed)

include hF hw

lemma flatMap_single {m : Nat} (hm : [m] ∈ g.rules p) : [m].flatMap h = [m] := by
  rw [List.flatMap_singleton, hF.old m (hw.member_lt p [m] hm m (List.mem_singleton_self m))]

/-- Unfolding makes no unit rules and loses none. -/
lemma isUnitRule_flatMap (hp : p < g.symbols.length) (hr : r ∈ g'.rules p) :
    g.isUnitRule (r.flatMap h) = g'.isUnitRule r := by
  rw [Bool.eq_iff_iff, isUnitRule_iff, isUnitRule_iff]
  constructor
  · rintro ⟨m, hm, ht⟩
    -- a rule with one member is there before and after, and no other rule unfolds to it
    have hmem : [m] ∈ g.rules p := hm ▸ hF.unfold_rule hp hr
    refine ⟨m, hF.unfold_rule_injective hw hp hr ((hF.single p hp m).2 hmem) ?_,
      (hF.isTerminal m).trans ht⟩
    rw [hm, hF.flatMap_single hw hmem]
  · rintro ⟨m, rfl, ht⟩
    have hmem : [m] ∈ g.rules p := (hF.single p hp m).1 hr
    exact ⟨m, hF.flatMap_single hw hmem, (hF.isTerminal m).symm.trans ht⟩

/-- The proper rules of a folded grammar unfold to the proper rules there were. -/
lemma properRule_iff (hp : p < g.symbols.length) :
    (∃ r, g'.ProperRule p r ∧ u = r.flatMap h) ↔ g.ProperRule p u := by
  have hstep : ∀ p < g.symbols.length, ∀ q, g'.UnitStep p q ↔ g.UnitStep p q := fun p hp q => by
    rw [UnitStep, UnitStep, hF.single p hp, hF.isTerminal]
  constructor
  · rintro ⟨r, ⟨q, hq, hr, hunit⟩, rfl⟩
    have hq := (unitSteps_iff hw hstep hp).1 hq
    have hlt := lt_of_unitSteps hw hp hq
    exact ⟨q, hq, hF.unfold_rule hlt hr, by rw [hF.isUnitRule_flatMap hw hlt hr, hunit]⟩
  · rintro ⟨q, hq, hu, hunit⟩
    have hlt := lt_of_unitSteps hw hp hq
    obtain ⟨r, hr, rfl⟩ := hF.exists_rule hlt hu
    rw [hF.isUnitRule_flatMap hw hlt hr] at hunit
    exact ⟨r, ⟨q, (unitSteps_iff hw hstep hp).2 hq, hr, hunit⟩, rfl⟩

end Folding

/-! ### Fresh symbols -/

lemma freshFrom_iff : g.FreshFrom n i ↔ n ≤ i ∧ ∃ k, g.ids[i]? = some (.synthetic k) := by
  refine and_congr_right fun _ => ?_
  rw [getElem?_ids]
  constructor
  · rintro ⟨s, k, hs, hid⟩
    exact ⟨k, by rw [hs, Option.map_some, hid]⟩
  · rintro ⟨k, hk⟩
    obtain ⟨s, hs, hid⟩ := Option.map_eq_some_iff.1 hk
    exact ⟨s, k, hs, hid⟩

/-- The symbols made after the start was isolated are the fresh ones. -/
lemma freshFrom_eq [DecidableEq α] {g₁ : Grammar α} (hs : g.isolateStart.result = .ok g₁)
    (he : g₁.Enlarges g') : g'.FreshFrom g.symbols.length =
      fun i => g₁.symbols.length ≤ i ∧ i < g'.symbols.length := by
  obtain ⟨ns, hns⟩ := he.ids
  have hle := (isolateStart_new hs).1
  funext i
  refine propext (freshFrom_iff.trans ⟨?_, ?_⟩)
  · rintro ⟨hge, k, hk⟩
    refine ⟨?_, lt_of_ids hk⟩
    by_contra hlt
    -- a symbol between the two is the new start, whose identity is of the other kind
    obtain ⟨-, rfl⟩ | ⟨-, hc, hids, -⟩ := isolateStart_spec hs
    · exact hlt hge
    · have hlen := hc.length
      obtain rfl : i = g.symbols.length := by omega
      rw [hns, hids, List.append_assoc, List.getElem?_append_right (by rw [length_ids]),
        length_ids, Nat.sub_self] at hk
      cases hk
  · rintro ⟨hge, hlt⟩
    refine ⟨hle.trans hge, ?_⟩
    have hlen : g'.symbols.length = g₁.symbols.length + ns.length := by
      rw [← length_ids, hns, List.length_append, length_ids, List.length_map]
    have hlt' : i - g₁.symbols.length < ns.length := by omega
    refine ⟨ns[i - g₁.symbols.length], ?_⟩
    rw [hns, List.getElem?_append_right (by rwa [length_ids]), length_ids, List.getElem?_map,
      List.getElem?_eq_getElem hlt', Option.map_some]

/-! ### Folding and inlining -/

/-- `h` for the symbols below `n`, while all others stand for themselves. -/
def unfoldBelow (n : Nat) (h : Nat → List Nat) (i : Nat) : List Nat := if i < n then h i else [i]

lemma unfoldBelow_of_lt (hi : i < n) : unfoldBelow n h i = h i := if_pos hi

lemma unfoldBelow_of_le (hi : n ≤ i) : unfoldBelow n h i = [i] := if_neg (Nat.not_lt.2 hi)

namespace Folding

variable [DecidableEq α] {g₂ : Grammar α} (hF : g.Folding g₂ h) (hw₂ : g₂.WellFormed)
  (hi : g₂.inlineUnits.result = .ok g')

omit [DecidableEq α] in
lemma flatMap_unfoldBelow (hw : g.WellFormed) (hr : r ∈ g.rules p) :
    r.flatMap (unfoldBelow g.symbols.length h) = r.flatMap h :=
  List.flatMap_congr fun m hm => unfoldBelow_of_lt (hw.member_lt p r hr m hm)

include hF hw₂ hi

/-- The rule of a symbol made by folding is no unit rule, so inlining leaves it alone. -/
lemma rules_inlineUnits {b : List Nat} (hb : g₂.rules i = [b])
    (hunit : ∀ m, b = [m] → g.isTerminal m = true) : g'.rules i = [b] := by
  have htargets : g₂.unitTargets i = [] := by
    by_contra hne
    obtain ⟨m, hm, ht⟩ := exists_unitStep hw₂ hne
    rw [hb, List.mem_singleton] at hm
    rw [hF.isTerminal, hunit m hm.symm] at ht
    cases ht
  rw [(inlineUnits_spec hw₂ hi).2, settledRules_of_unitTargets_eq_nil hw₂ htargets, hb]

lemma unfolds : Unfolds (fun i => g.symbols.length ≤ i ∧ i < g₂.symbols.length) g'.rules
    (unfoldBelow g₂.symbols.length h) where
  keep i hn := by
    rcases Nat.lt_or_ge i g₂.symbols.length with hlt | hge
    · rw [unfoldBelow_of_lt hlt]
      exact hF.old i (by omega)
    · exact unfoldBelow_of_le hge
  ne_nil i := by
    rcases Nat.lt_or_ge i g₂.symbols.length with hlt | hge
    · rw [unfoldBelow_of_lt hlt]
      exact hF.ne_nil i hlt
    · rw [unfoldBelow_of_le hge]
      exact List.cons_ne_nil i []
  body i hfresh := by
    obtain ⟨hge, hlt⟩ := hfresh
    obtain ⟨b, hb, hbody, hsingle⟩ := hF.fresh i hge hlt
    have hbi : b ∈ g₂.rules i := hb ▸ List.mem_singleton_self b
    refine ⟨b, hF.rules_inlineUnits hw₂ hi hb hsingle, ?_, fun m hm hfm => ?_⟩
    · rw [flatMap_unfoldBelow hw₂ hbi, unfoldBelow_of_lt hlt, hbody]
    · have := lt_of_isTerminal (hsingle m hm)
      have := hfm.1
      omega

lemma unfold_rules_iff (hw : g.WellFormed) (hp : p < g.symbols.length) :
    (∃ r ∈ g'.rules p, u = r.flatMap (unfoldBelow g₂.symbols.length h)) ↔ g.ProperRule p u := by
  rw [← hF.properRule_iff hw hp]
  refine exists_congr fun r => ?_
  rw [mem_rules_inlineUnits hw₂ hi]
  refine and_congr_right fun hr => ?_
  obtain ⟨q, -, hr, -⟩ := hr
  rw [flatMap_unfoldBelow hw₂ hr]

end Folding

/-! ### Settling -/

/-- `f` unfolds the symbols of `g'` that were made for parts of rules, and the rules of `g'` unfold
to the proper rules of `g`. -/
structure Settles (g g' : Grammar α) (f : Nat → List Nat) : Prop where
  unfolds : Unfolds (g'.FreshFrom g.symbols.length) g'.rules f
  new : ∀ i, g.symbols.length ≤ i → i < g'.symbols.length →
    g'.FreshFrom g.symbols.length i ∨ i = g'.start
  rules : ∀ p < g.symbols.length, ∀ u, (∃ r ∈ g'.rules p, u = r.flatMap f) ↔ g.ProperRule p u
  start : ∀ u, (∃ r ∈ g'.rules g'.start, u = r.flatMap f) ↔ g.ProperRule g.start u

/-- A normal grammar is settled as it is. -/
lemma InNormalForm.settles (hn : g.InNormalForm) : g.Settles g fun i => [i] := by
  have hfresh : ∀ i, ¬g.FreshFrom g.symbols.length i := fun i hi => by
    obtain ⟨hge, k, hk⟩ := freshFrom_iff.1 hi
    exact absurd (lt_of_ids hk) (Nat.not_lt.2 hge)
  have hunit : ∀ p m, [m] ∈ g.rules p → g.isTerminal m = true := fun p m hm => by
    obtain ⟨t, ht, htt⟩ | ⟨l, m', hlm, -⟩ := hn.rules p [m] hm
    · rwa [List.singleton_inj.1 ht]
    · simp at hlm
  have hrules : ∀ p u, (∃ r ∈ g.rules p, u = r.flatMap fun i => [i]) ↔ g.ProperRule p u :=
    fun p u => by simp [properRule_iff_of_unitFree_at (hunit p)]
  exact ⟨⟨fun i _ => rfl, fun i => List.cons_ne_nil i [], fun i hi => absurd hi (hfresh i)⟩,
    fun i hge hlt => absurd hlt (Nat.not_lt.2 hge), fun p _ => hrules p, hrules g.start⟩

variable [DecidableEq α]

lemma pass_settles (hw : g.WellFormed) (h : g.pass.result = .ok g') : ∃ f, g.Settles g' f := by
  obtain ⟨g₁, g₂, hp⟩ := pass_spec hw h
  obtain ⟨f, hF⟩ := hp.folds
  obtain ⟨hle, hnew⟩ := isolateStart_new hp.isolate
  obtain ⟨hold, hstart⟩ := isolateStart_properRule hw hp.isolate
  have hw₁ := hp.isolated
  have hw₂ := hp.folded
  have hsame := (inlineUnits_spec hw₂ hp.inline).1
  have hfresh :=
    freshFrom_eq hp.isolate (hp.enlarges.trans (inlineUnits_reshapes hp.inline).enlarges)
  refine ⟨unfoldBelow g₂.symbols.length f, ?_, fun i hge hlt => ?_, fun p hlt u => ?_, fun u => ?_⟩
  · rw [hfresh, hsame.length]
    exact hF.unfolds hw₂ hp.inline
  · rw [hfresh, hsame.start, hF.start]
    rcases Nat.lt_or_ge i g₁.symbols.length with hlt₁ | hge₁
    · exact .inr (hnew i hge hlt₁)
    · exact .inl ⟨hge₁, hlt⟩
  · rw [hF.unfold_rules_iff hw₂ hp.inline hw₁ (by omega), hold p hlt u]
  · rw [hsame.start, hF.start, hF.unfold_rules_iff hw₂ hp.inline hw₁ hw₁.start_lt, hstart u]

lemma normalize_settles {c : NormalGrammar α} (hw : g.WellFormed)
    (hn : g.normalize.result = .ok (g', c)) : ∃ f, g.Settles g' f := by
  obtain ⟨⟨hnf, rfl⟩ | ⟨-, hp⟩, -⟩ := normalize_cases hw hn
  · exact ⟨_, hnf.settles⟩
  · exact pass_settles hw hp

/-- **What normalisation does to the rules.** Every symbol that it makes for a part of a rule has
one rule, so that replacing these symbols ends, and ends in one way. What the rules of a symbol then
stand for are its proper rules and those of all that it reached through unit rules; a new start has
those of the old start. -/
theorem normalize_expandedRule {c : NormalGrammar α} (hg : g.Reachable)
    (hn : g.normalize.result = .ok (g', c)) :
    (∀ i, g'.FreshFrom g.symbols.length i → ∃ r, g'.rules i = [r]) ∧
      (∀ i, g.symbols.length ≤ i → i < g'.symbols.length →
        g'.FreshFrom g.symbols.length i ∨ i = g'.start) ∧
      (WellFounded fun v u =>
        (freshRules (g'.FreshFrom g.symbols.length) g'.rules).Produces u v) ∧
      (∀ r, ∃! u, Expands (g'.FreshFrom g.symbols.length) g'.rules r u) ∧
      (∀ p < g.symbols.length, ∀ u,
        g'.ExpandedRule g.symbols.length p u ↔ g.ProperRule p u) ∧
      ∀ u, g'.ExpandedRule g.symbols.length g'.start u ↔ g.ProperRule g.start u := by
  obtain ⟨f, hf⟩ := normalize_settles hg.wellFormed hn
  have hu := hf.unfolds
  refine ⟨fun i hi => ?_, hf.new, hu.wellFounded, fun r => ⟨r.flatMap f, ?_, fun u => ?_⟩,
    fun p hp u => ?_, fun u => ?_⟩
  · obtain ⟨b, hb, -⟩ := hu.body i hi
    exact ⟨b, hb⟩
  · exact hu.expands r
  · exact hu.eq_of_expands
  · simp only [ExpandedRule, hu.expands_iff, hf.rules p hp]
  · simp only [ExpandedRule, hu.expands_iff, hf.start]

/-- The rule `[0, 4]` of the result stands for `S → S a S`. -/
theorem normalize_expandedRule_alternating : alternating.Reachable ∧
    alternating.normalize.result = .ok (alternatingResult, alternatingSnapshot) ∧
      (alternatingResult.FreshFrom 2 4 ∧ ∃ r, alternatingResult.rules 4 = [r]) ∧
      (∃! u, Expands (alternatingResult.FreshFrom 2) alternatingResult.rules [0, 4] u) ∧
      (∀ u, alternatingResult.ExpandedRule 2 0 u ↔ alternating.ProperRule 0 u) ∧
      ∀ u, alternatingResult.ExpandedRule 2 2 u ↔ alternating.ProperRule 0 u := by
  have hfresh : alternatingResult.FreshFrom 2 4 := ⟨by decide, _, 1, rfl, rfl⟩
  obtain ⟨hone, -, -, hex, hrules, hstart⟩ :=
    normalize_expandedRule alternating_reachable alternating_normalize
  exact ⟨alternating_reachable, alternating_normalize, ⟨hfresh, hone 4 hfresh⟩, hex [0, 4],
    hrules 0 (by decide), hstart⟩

end Chomsky.Grammar
