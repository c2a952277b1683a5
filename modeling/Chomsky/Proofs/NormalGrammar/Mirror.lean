import Chomsky.Render
import Chomsky.Proofs.NormalGrammar.Snapshot

/-!
A normal-form grammar answers as the grammar that it was taken from, and is printed like it.

The two printers find out in different ways what stands between quotes: one looks at the kind of
each member, the other at the kind of the rule. A normal rule with one member has a terminal, and
a pair has none, so both come to the same.
-/

namespace Chomsky.Grammar

variable {α : Type} {g : Grammar α} {c : NormalGrammar α} {p i : Nat} {r : List Nat}

/-! ### Symbols and rules -/

lemma index?_of_snapshot [DecidableEq α] (h : g.snapshot = .ok c) (a : α) :
    c.index? a = g.index? a := by
  rw [NormalGrammar.index?, index?, position?_eq, ids_of_snapshot h, width_of_snapshot h]
  rfl

lemma Mirrors.rulesOf (hm : g.Mirrors c) (hc : c.WellFormed) (hp : p < g.symbols.length) :
    c.rulesOf p = .ok (c.rulesAt p) := by
  have hlt : p < c.rules.size := by rwa [hc.rules_size, hm.size]
  rw [NormalGrammar.rulesOf, NormalGrammar.rulesAt, Array.getElem?_eq_getElem hlt]
  rfl

lemma Mirrors.hasRule (hm : g.Mirrors c) (hc : c.WellFormed) (hp : p < g.symbols.length)
    (rule : NormalRule) : c.hasRule p rule = .ok (decide (rule.members ∈ g.rules p)) := by
  rw [NormalGrammar.hasRule_of_lt (by rwa [hc.rules_size, hm.size])]
  simp only [hm.mem_rules]

/-- Symbol by symbol, the rules are the same lists. -/
lemma Mirrors.map_rules (hm : g.Mirrors c) (hc : c.WellFormed) :
    c.rules.toList.map (List.map NormalRule.members) = g.symbols.map (·.rules) := by
  refine List.ext_getElem? fun p => ?_
  have hrules := hm.rules p
  have hsize : c.rules.size = g.symbols.length := hc.rules_size.trans hm.size
  rcases Nat.lt_or_ge p g.symbols.length with hp | hp
  · obtain ⟨s, hs⟩ := exists_symbol hp
    have hget : c.rules[p]? = some c.rules[p] := Array.getElem?_eq_getElem (hsize ▸ hp)
    rw [NormalGrammar.rulesAt, hget, rules_eq hs] at hrules
    rw [List.getElem?_map, List.getElem?_map, Array.getElem?_toList, hget, hs]
    exact congrArg some hrules
  · rw [List.getElem?_eq_none (by simpa [hsize] using hp),
      List.getElem?_eq_none (by simpa using hp)]

lemma Mirrors.ruleCount (hm : g.Mirrors c) (hc : c.WellFormed) : c.ruleCount = g.ruleCount := by
  calc c.ruleCount = (c.rules.toList.flatten.map NormalRule.members).length :=
        (List.length_map _).symm
    _ = (g.symbols.map (·.rules)).flatten.length := by rw [List.map_flatten, hm.map_rules hc]
    _ = g.ruleCount := by rw [Grammar.ruleCount, List.flatMap_def]

/-! ### Parents -/

lemma Mirrors.parentsOf (hm : g.Mirrors c) (hc : c.WellFormed) (hi : i < g.symbols.length) :
    ∃ ps, c.parentsOf i = .ok ps ∧ ps.size = g.symbols.length ∧
      ∀ p, ps.test p = .ok (decide (∃ r ∈ g.rules p, i ∈ r)) := by
  obtain ⟨ps, hps, hf, hh⟩ := hc.parentsOf (hm.size ▸ hi)
  refine ⟨ps, hps, hf.size.trans hm.size, fun p => ?_⟩
  rw [hf.test, Except.ok.injEq, Bool.eq_iff_iff, hh, hm.exists_rule, decide_eq_true_eq]

lemma Mirrors.sharedParentsInto (hm : g.Mirrors c) (hc : c.WellFormed) {l r : Nat}
    (hl : l < g.symbols.length) (hr : r < g.symbols.length) {out : BitSet}
    (ho : out.Fits g.symbols.length) :
    ∃ ps, c.sharedParentsInto l r out = .ok ps ∧ ps.size = g.symbols.length ∧
      ∀ p, ps.test p =
        .ok (decide ((∃ rule ∈ g.rules p, l ∈ rule) ∧ ∃ rule ∈ g.rules p, r ∈ rule)) := by
  rw [← hm.size] at hl hr ho ⊢
  obtain ⟨ps, hps, hf, hh⟩ := hc.sharedParentsInto ho hl hr
  refine ⟨ps, hps, hf.size, fun p => ?_⟩
  rw [hf.test, Except.ok.injEq, Bool.eq_iff_iff, hh, hm.exists_rule, hm.exists_rule,
    decide_eq_true_eq]

/-! ### Printing -/

section Printing

variable [Label α]

/-- The printed form of a symbol of the grammar. -/
def nameAt (g : Grammar α) (i : Nat) : String := (g.symbols[i]?.map (·.id.text)).getD ""

def memberText (g : Grammar α) (i : Nat) : String :=
  if g.isTerminal i then " \"" ++ g.nameAt i ++ "\"" else " " ++ g.nameAt i

def ruleText (g : Grammar α) (p : Nat) (r : List Nat) : String :=
  g.nameAt p ++ ":" ++ String.join (r.map g.memberText)

/-- All rules with a line for each, symbol by symbol. -/
def fullText (g : Grammar α) : String :=
  String.join (g.indices.map fun p =>
    String.join ((g.rules p).map fun r => g.ruleText p r ++ "\n"))

lemma renderMember_eq (hi : i < g.symbols.length) :
    g.renderMember i = .ok (g.memberText i) := by
  obtain ⟨s, hs⟩ := exists_symbol hi
  rw [renderMember, symbol, hs, memberText, nameAt, hs, isTerminal_eq hs]
  rfl

lemma renderRule_eq (hp : p < g.symbols.length) (hr : ∀ m ∈ r, m < g.symbols.length) :
    g.renderRule p r = .ok (g.ruleText p r) := by
  obtain ⟨s, hs⟩ := exists_symbol hp
  have hmembers := except_mapM_eq_ok_map fun m hm => renderMember_eq (hr m hm)
  rw [renderRule, symbol, hs, hmembers, ruleText, nameAt, hs]
  rfl

lemma render_eq (hw : g.WellFormed) : g.render = .ok g.fullText := by
  have hlines : ∀ p ∈ g.indices, (do
      let rules ← (g.rules p).mapM (g.renderRule p)
      pure (String.join (rules.map (· ++ "\n"))) : Except Fault String) =
        .ok (String.join ((g.rules p).map fun r => g.ruleText p r ++ "\n")) := fun p hp => by
    have hlt : p < g.symbols.length := by simpa [hw.indices] using hp
    have hrules := except_mapM_eq_ok_map fun r hr =>
      renderRule_eq hlt (hw.member_lt p r hr)
    rw [hrules, except_ok_bind, List.map_map]
    rfl
  rw [render, except_mapM_eq_ok_map hlines]
  rfl

/-! The other printer. -/

lemma nameText_eq (h : c.ids = g.ids) (hi : i < g.symbols.length) :
    c.nameText i = .ok (g.nameAt i) := by
  obtain ⟨s, hs⟩ := exists_symbol hi
  rw [NormalGrammar.nameText, NormalGrammar.ident, h, getElem?_ids, nameAt, hs]
  rfl

/-- The kind of a normal rule tells the kind of its members. -/
lemma renderNormalRule_eq (h : c.ids = g.ids) {rule : NormalRule} (hp : p < g.symbols.length)
    (hm : ∀ m ∈ rule.members, m < g.symbols.length)
    (hn : g.isNormalRule rule.members = true) :
    c.renderRule p rule = .ok (g.ruleText p rule.members ++ "\n") := by
  have hparent := nameText_eq h hp
  cases rule with
  | terminal t =>
    have ht : g.isTerminal t = true := hn
    have hname := nameText_eq h (hm t (by simp [NormalRule.members]))
    have hquote : ": \"" = ":" ++ " \"" := rfl
    calc c.renderRule p (.terminal t)
        = .ok (g.nameAt p ++ ": \"" ++ g.nameAt t ++ "\"\n") := by
          rw [NormalGrammar.renderRule, hparent, except_ok_bind]
          simp only [hname, except_ok_bind]
          rfl
      _ = .ok (g.ruleText p [t] ++ "\n") := by
          simp only [ruleText, List.map_cons, List.map_nil, memberText, ht, if_true, hquote,
            String.join_cons, String.join_nil, String.append_empty, String.append_assoc]
          rfl
  | pair l r =>
    have hpair : g.isTerminal l = false ∧ g.isTerminal r = false := by
      simpa [NormalRule.members, isNormalRule] using hn
    have hl := nameText_eq h (hm l (by simp [NormalRule.members]))
    have hr := nameText_eq h (hm r (by simp [NormalRule.members]))
    have hspace : ": " = ":" ++ " " := rfl
    calc c.renderRule p (.pair l r)
        = .ok (g.nameAt p ++ ": " ++ g.nameAt l ++ " " ++ g.nameAt r ++ "\n") := by
          rw [NormalGrammar.renderRule, hparent, except_ok_bind]
          simp only [hl, hr, except_ok_bind]
          rfl
      _ = .ok (g.ruleText p [l, r] ++ "\n") := by
          simp only [ruleText, List.map_cons, List.map_nil, memberText, hpair, hspace,
            Bool.false_eq_true, if_false, String.join_cons, String.join_nil, String.append_empty,
            String.append_assoc]

/-- **A snapshot is printed like its grammar.** -/
lemma render_snapshot (hw : g.WellFormed) (h : g.snapshot = .ok c) : c.render = .ok g.fullText := by
  have hm := snapshot_mirrors h
  have hc := snapshot_wellFormed hw h
  have hnormal := (snapshot_eq_ok.1 h).1
  have hindices : c.indices = g.indices := by rw [hc.indices, hm.size, hw.indices]
  have hlines : ∀ p ∈ g.indices, (do
      let rules ← c.rulesOf p
      let lines ← rules.mapM (c.renderRule p)
      pure (String.join lines) : Except Fault String) =
        .ok (String.join ((g.rules p).map fun r => g.ruleText p r ++ "\n")) := fun p hp => by
    have hlt : p < g.symbols.length := by simpa [hw.indices] using hp
    have hrules : (c.rulesAt p).mapM (c.renderRule p) =
        .ok ((c.rulesAt p).map fun rule => g.ruleText p rule.members ++ "\n") :=
      except_mapM_eq_ok_map fun rule hr => by
        have hr := hm.mem_rules.1 hr
        exact renderNormalRule_eq (ids_of_snapshot h) hlt (hw.member_lt p _ hr)
          (isNormal_iff.1 hnormal p _ hr)
    rw [hm.rulesOf hc hlt, except_ok_bind, hrules, except_ok_bind, ← hm.rules, List.map_map]
    rfl
  rw [NormalGrammar.render, hindices, except_mapM_eq_ok_map hlines]
  rfl

end Printing

/-- **The finished grammar mirrors the grammar it came from.** After a normalisation both have the
same symbols with the same names, kinds and start, and symbol by symbol the same rules in the same
order, none of them merged. The parents of a symbol are those with a rule that contains it, and the
shared parents of two symbols those with a rule for each, whatever the set held that they are
written over. Both are printed as the same text. -/
theorem normalize_mirrored [DecidableEq α] [Label α] {g' : Grammar α} (hg : g.Reachable)
    (hn : g.normalize.result = .ok (g', c)) :
    (c.size = g'.size ∧ c.indices = g'.indices ∧ c.start = g'.start ∧ c.ids = g'.ids ∧
      (∀ a, c.index? a = g'.index? a) ∧
      ∀ i < g'.symbols.length, c.isTerminal i = .ok (g'.isTerminal i)) ∧
    (c.ruleCount = g'.ruleCount ∧ ∀ p < g'.symbols.length,
      (∃ rules, c.rulesOf p = .ok rules ∧ rules.map NormalRule.members = g'.rules p ∧
        rules.Nodup) ∧
      ∀ rule, c.hasRule p rule = .ok (decide (rule.members ∈ g'.rules p))) ∧
    (∀ s < g'.symbols.length, ∃ ps, c.parentsOf s = .ok ps ∧ ps.size = g'.symbols.length ∧
      ∀ p, ps.test p = .ok (decide (∃ r ∈ g'.rules p, s ∈ r))) ∧
    (∀ l < g'.symbols.length, ∀ r < g'.symbols.length, ∀ out : BitSet,
      out.Fits g'.symbols.length → ∃ ps, c.sharedParentsInto l r out = .ok ps ∧
        ps.size = g'.symbols.length ∧ ∀ p, ps.test p =
          .ok (decide ((∃ rule ∈ g'.rules p, l ∈ rule) ∧ ∃ rule ∈ g'.rules p, r ∈ rule))) ∧
    ∃ text, c.render = .ok text ∧ g'.render = .ok text := by
  obtain ⟨-, hsnap⟩ := normalize_eq_ok.1 hn
  obtain ⟨hw, hc, hm⟩ := normalize_mirrors hg hn
  have hsize : c.size = g'.size := by
    rw [hc.size, hm.size, Grammar.size, Width.wrap_of_le hw.length_le]
  have hindices : c.indices = g'.indices := by rw [hc.indices, hm.size, hw.indices]
  refine ⟨⟨hsize, hindices, hm.start, ids_of_snapshot hsnap, index?_of_snapshot hsnap,
    fun i hi => ?_⟩, ⟨hm.ruleCount hc, fun p hp => ⟨⟨c.rulesAt p, hm.rulesOf hc hp, hm.rules p,
    hc.nodup_rules p⟩, hm.hasRule hc hp⟩⟩, fun s hs => hm.parentsOf hc hs,
    fun l hl r hr out ho => hm.sharedParentsInto hc hl hr ho,
    ⟨_, render_snapshot hw hsnap, render_eq hw⟩⟩
  rw [hc.isTerminal_eq_ok, hm.size, hm.isTerminal]
  exact ⟨hi, rfl⟩

theorem normalize_mirrored_alternating : alternating.Reachable ∧
    alternating.normalize.result = .ok (alternatingResult, alternatingSnapshot) ∧
    (∃ ps, alternatingSnapshot.sharedParentsInto 0 3 (BitSet.full 5) = .ok ps ∧ ps.size = 5) ∧
    ∃ text, alternatingSnapshot.render = .ok text ∧ alternatingResult.render = .ok text := by
  obtain ⟨-, -, -, hshared, htext⟩ := normalize_mirrored alternating_reachable
    alternating_normalize
  obtain ⟨ps, hps, hsize, -⟩ := hshared 0 (by decide) 3 (by decide) (BitSet.full 5) ⟨rfl, rfl⟩
  exact ⟨alternating_reachable, alternating_normalize, ⟨ps, hps, hsize⟩, htext⟩

end Chomsky.Grammar
