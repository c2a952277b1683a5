import Mathlib.Tactic.Common
import Chomsky.NormalGrammar.Basic
import Chomsky.Proofs.BitSet
import Chomsky.Proofs.Except
import Chomsky.Theory.Derivation

/-!
The invariant of normal-form grammars that do not contradict themselves: all parts are about the
same symbols, rules are made as normal rules should be, and the parent sets are exact.
-/

namespace Chomsky.NormalGrammar

variable {α : Type} {c : NormalGrammar α} {p t l r : Nat} {rule : NormalRule}

/-- Symbols that are not there have no rules. -/
def rulesAt (c : NormalGrammar α) (p : Nat) : List NormalRule := (c.rules[p]?).getD []

structure WellFormed (c : NormalGrammar α) : Prop where
  size_le : c.tags.size ≤ c.width.max
  rules_size : c.rules.size = c.tags.size
  terminals : c.terminals.Fits c.tags.size
  parents : ∀ s < c.tags.size, ∃ ps, c.parents[s]? = some ps ∧ ps.Fits c.tags.size ∧
    ∀ p, ps.holds p = true ↔ ∃ rule ∈ c.rulesAt p, s ∈ rule.members
  terminal_rule : ∀ p t, .terminal t ∈ c.rulesAt p → c.terminals.holds t = true
  pair_rule : ∀ p l r, .pair l r ∈ c.rulesAt p →
    ∀ m ∈ [l, r], m < c.tags.size ∧ c.terminals.holds m = false
  rules_terminal : ∀ p, c.terminals.holds p = true → c.rulesAt p = []
  nodup_rules : ∀ p, (c.rulesAt p).Nodup
  start_lt : c.start < c.tags.size
  start_nonterminal : c.terminals.holds c.start = false
  isRoot : ∀ i < c.tags.size, c.isRoot i = .ok (decide (i = c.start))

lemma hasRule_of_lt (h : p < c.rules.size) :
    c.hasRule p rule = .ok (decide (rule ∈ c.rulesAt p)) := by
  have hp : c.rules[p]? = some c.rules[p] := Array.getElem?_eq_getElem h
  simp only [hasRule, rulesOf, rulesAt, hp, required, Except.map, Option.getD_some]
  rw [Except.ok.injEq, Bool.eq_iff_iff]
  simp

lemma hasRule_eq_ok : c.hasRule p rule = .ok true ↔ rule ∈ c.rulesAt p := by
  by_cases h : p < c.rules.size
  · simp [hasRule_of_lt h]
  · have hp : c.rules[p]? = none := Array.getElem?_eq_none (by omega)
    simp [hasRule, rulesOf, rulesAt, hp, required, Except.map]

lemma ruleSet_iff {r : List Nat} : c.ruleSet p r ↔ ∃ rule ∈ c.rulesAt p, rule.members = r := by
  simp only [ruleSet, hasRule_eq_ok]

/-! ### Rules are known by their members -/

lemma ruleSet_singleton : c.ruleSet p [t] ↔ .terminal t ∈ c.rulesAt p := by
  rw [ruleSet_iff]
  constructor
  · rintro ⟨_ | _, hr, h⟩
    · rwa [← List.singleton_inj.1 h]
    · simp [NormalRule.members] at h
  · exact fun h => ⟨_, h, rfl⟩

lemma ruleSet_pair : c.ruleSet p [l, r] ↔ .pair l r ∈ c.rulesAt p := by
  rw [ruleSet_iff]
  constructor
  · rintro ⟨_ | _, hr, h⟩
    · simp [NormalRule.members] at h
    · simp only [NormalRule.members, List.cons.injEq, and_true] at h
      rwa [← h.1, ← h.2]
  · exact fun h => ⟨_, h, rfl⟩

namespace WellFormed

variable (hc : c.WellFormed)

include hc

lemma size : c.size = c.tags.size := Width.wrap_of_le hc.size_le

lemma wrap_of_lt (hp : p < c.tags.size) : c.width.wrap p = p :=
  Width.wrap_of_le (by have := hc.size_le; omega)

lemma indices : c.indices = List.range c.tags.size :=
  (List.map_congr_left fun _ hi => hc.wrap_of_lt (List.mem_range.1 hi)).trans (List.map_id' _)

lemma isTerminal_eq_ok {b : Bool} :
    c.isTerminal p = .ok b ↔ p < c.tags.size ∧ c.terminals.holds p = b :=
  hc.terminals.get_eq_ok

lemma isTerminal_eq_true : c.isTerminal p = .ok true ↔ c.terminals.holds p = true :=
  hc.isTerminal_eq_ok.trans (and_iff_right_of_imp hc.terminals.lt)

lemma lt_of_mem_rulesAt (h : rule ∈ c.rulesAt p) : p < c.tags.size := by
  by_contra hp
  rw [rulesAt, Array.getElem?_eq_none (by rw [hc.rules_size]; omega)] at h
  exact absurd h List.not_mem_nil

lemma nonterminal_of_mem (h : rule ∈ c.rulesAt p) : c.terminals.holds p = false := by
  by_contra ht
  rw [hc.rules_terminal p (by simpa using ht)] at h
  exact absurd h List.not_mem_nil

lemma member_lt (h : rule ∈ c.rulesAt p) {m : Nat} (hm : m ∈ rule.members) : m < c.tags.size := by
  cases rule with
  | terminal t =>
    obtain rfl : m = t := by simpa [NormalRule.members] using hm
    exact hc.terminals.lt (hc.terminal_rule p m h)
  | pair l r => exact (hc.pair_rule p l r h m hm).1

lemma parentsOf (hp : p < c.tags.size) : ∃ ps, c.parentsOf p = .ok ps ∧ ps.Fits c.tags.size ∧
    ∀ q, ps.holds q = true ↔ ∃ rule ∈ c.rulesAt q, p ∈ rule.members := by
  obtain ⟨ps, hps, hf⟩ := hc.parents p hp
  exact ⟨ps, required_eq_ok.2 hps, hf⟩

/-- The parents of both symbols, whatever the set held before. -/
lemma sharedParentsInto {out : BitSet} (ho : out.Fits c.tags.size) (hl : l < c.tags.size)
    (hr : r < c.tags.size) : ∃ ps, c.sharedParentsInto l r out = .ok ps ∧
      ps.Fits c.tags.size ∧ ∀ q, ps.holds q = true ↔
        (∃ rule ∈ c.rulesAt q, l ∈ rule.members) ∧ ∃ rule ∈ c.rulesAt q, r ∈ rule.members := by
  obtain ⟨ls, hls, hfl, hml⟩ := hc.parentsOf hl
  obtain ⟨rs, hrs, hfr, hmr⟩ := hc.parentsOf hr
  obtain ⟨u, hu, hfu, hmu⟩ := ho.clear.union hfl
  obtain ⟨ps, hps, hfp, hmp⟩ := hfu.inter hfr
  refine ⟨ps, ?_, hfp, fun q => ?_⟩
  · rw [NormalGrammar.sharedParentsInto, if_pos (ho.size.trans hc.size.symm), hls, hrs,
      except_ok_bind, hu]
    exact hps
  · rw [hmp, hmu, BitSet.holds_clear, Bool.false_or, Bool.and_eq_true, hml, hmr]

lemma sharedParents (hl : l < c.tags.size) (hr : r < c.tags.size) :
    ∃ ps, c.sharedParents l r = .ok ps ∧ ps.Fits c.tags.size ∧
      ∀ q, .pair l r ∈ c.rulesAt q → ps.holds q = true := by
  have he : (BitSet.empty c.size).Fits c.tags.size := hc.size.symm ▸ BitSet.fits_empty _
  obtain ⟨ps, hps, hf, hm⟩ := hc.sharedParentsInto he hl hr
  exact ⟨ps, hps, hf, fun q hq => (hm q).2 ⟨⟨_, hq, by simp [NormalRule.members]⟩,
    ⟨_, hq, by simp [NormalRule.members]⟩⟩⟩

end WellFormed

end Chomsky.NormalGrammar
