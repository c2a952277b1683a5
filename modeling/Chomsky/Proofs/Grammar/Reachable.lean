import Chomsky.Proofs.Except
import Chomsky.Proofs.Grammar.Reshape

/-!
Every request, normalisation among them, is a chain of primitive changes. So whatever holds of
a new grammar and is kept by each primitive change holds of all grammars that requests lead to;
the invariants do.
-/

namespace Chomsky.Grammar

open Relation

variable {α : Type} [DecidableEq α] {g g' : Grammar α}

/-! ### Normalisation -/

lemma isolateStart_changes (h : g.isolateStart.result = .ok g') : g.Changes g' := by
  obtain ⟨-, rfl⟩ | ⟨-, n, g₁, g₂, hp, hi, rfl⟩ := isolateStart_eq_ok.1 h
  · exact .refl
  · obtain ⟨hlt, ht, -, -, rfl⟩ := insertRule_eq_ok.1 hi
    exact ((ReflTransGen.single (.newStart hp)).tail (.insert hi)).tail
      (.moveStart (by simpa using hlt) (by simpa using ht))

lemma pass_changes (h : g.pass.result = .ok g') : g.Changes g' := by
  obtain ⟨g₁, g₂, g₃, h₁, h₂, h₃, -, h₅⟩ := pass_eq_ok.1 h
  exact (isolateStart_changes h₁).trans <| (shieldTerminals_reshapes h₂).changes.trans <|
    (splitLongRules_reshapes h₃).changes.trans (inlineUnits_reshapes h₅).changes

lemma normalize_changes {c : NormalGrammar α} (h : g.normalize.result = .ok (g', c)) :
    g.Changes g' :=
  normalize_keeps (fun g₁ => g.Changes g₁) (fun _ _ hc hp => hc.trans (pass_changes hp)) .refl h

/-! ### Requests -/

/-- What an answered request has done. The members of a new rule have names, and so has its parent,
the start symbol apart. -/
inductive Request (g : Grammar α) : Grammar α → Prop where
  | rejected : Request g g
  | declare {name : α} {terminal : Bool} {i : Nat} {g' : Grammar α}
    (h : g.declare name terminal = .ok (i, g')) : Request g g'
  | rule {p : Nat} {r : List Nat} {g' : Grammar α}
    (hp : p = g.start ∨ ∃ a, g.index? a = some p) (hr : ∀ m ∈ r, ∃ a, g.index? a = some m)
    (h : (g.insertRule p r).result = .ok g') : Request g g'
  | tag {i : Nat} {tag : α} : Request g (g.withTag i tag)
  | normalize {g' : Grammar α} {c : NormalGrammar α} (h : g.normalize.result = .ok (g', c)) :
    Request g g'

lemma index?_of_mem_resolve {as : List α} {r : List Nat} (h : g.resolve as = .ok r) :
    ∀ m ∈ r, ∃ a, g.index? a = some m := by
  fun_induction resolve g as generalizing r with
  | case1 => simp [← Except.ok.inj h]
  | case2 => cases h
  | case3 a as i hi ih =>
    obtain ⟨r', hr', rfl⟩ := except_map_eq_ok.1 h
    intro m hm
    rcases List.mem_cons.1 hm with rfl | hm
    · exact ⟨a, hi⟩
    · exact ih hr' m hm

lemma index?_of_mem_resolveRule {p : Nat} {as : List α} {r : List Nat}
    (h : g.resolveRule p as = .ok r) : ∀ m ∈ r, ∃ a, g.index? a = some m := by
  unfold resolveRule at h
  split at h
  · cases h
  · exact index?_of_mem_resolve h

lemma addRule_eq_ok {a : α} {as : List α} {t : Trail Record (Grammar α)} :
    g.addRule a as = .ok t ↔ ∃ p r, g.index? a = some p ∧ g.isTerminal p = false ∧
      g.resolveRule p as = .ok r ∧ t = g.insertRule p r := by
  unfold addRule
  constructor
  · intro h
    split at h
    · cases h
    · next p hp =>
      split at h
      · cases h
      · next ht =>
        obtain ⟨r, hr, rfl⟩ := except_map_eq_ok.1 h
        exact ⟨p, r, hp, by simpa using ht, hr, rfl⟩
  · rintro ⟨p, r, hp, ht, hr, rfl⟩
    simp only [hp, ht, hr, Bool.false_eq_true, if_false]
    rfl

lemma addRuleToStart_eq_ok {as : List α} {t : Trail Record (Grammar α)} :
    g.addRuleToStart as = .ok t ↔
      ∃ r, g.resolveRule g.start as = .ok r ∧ t = g.insertRule g.start r := by
  rw [addRuleToStart, except_map_eq_ok]
  exact exists_congr fun r => and_congr_right fun _ => eq_comm

lemma assignTag_eq_ok {a b : α} :
    g.assignTag a b = .ok g' ↔ ∃ i, g.index? a = some i ∧ g' = g.withTag i b := by
  unfold assignTag
  split
  · next h => simp [h]
  · next i h => simp [h, eq_comm]

lemma addRule_request {a : α} {as : List α} {t : Trail Record (Grammar α)}
    (h : g.addRule a as = .ok t) (ht : t.result = .ok g') : g.Request g' := by
  obtain ⟨p, r, hp, -, hr, rfl⟩ := addRule_eq_ok.1 h
  exact .rule (.inr ⟨a, hp⟩) (index?_of_mem_resolveRule hr) ht

lemma addRuleToStart_request {as : List α} {t : Trail Record (Grammar α)}
    (h : g.addRuleToStart as = .ok t) (ht : t.result = .ok g') : g.Request g' := by
  obtain ⟨r, hr, rfl⟩ := addRuleToStart_eq_ok.1 h
  exact .rule (.inl rfl) (index?_of_mem_resolveRule hr) ht

lemma assignTag_request {a b : α} (h : g.assignTag a b = .ok g') : g.Request g' := by
  obtain ⟨i, -, rfl⟩ := assignTag_eq_ok.1 h
  exact .tag

lemma apply_request {e : Edit α} {t : Trail Record (Grammar α)} (h : g.apply e = .ok t)
    (ht : t.result = .ok g') : g.Request g' := by
  cases e with
  | declare a terminal =>
    obtain ⟨x, hx, rfl⟩ := except_map_eq_ok.1 h
    obtain rfl := Except.ok.inj ht
    exact .declare hx
  | addRule a as => exact addRule_request h ht
  | addRuleToStart as => exact addRuleToStart_request h ht
  | assignTag a b =>
    obtain ⟨g₁, hg, rfl⟩ := except_map_eq_ok.1 h
    obtain rfl := Except.ok.inj ht
    exact assignTag_request hg
  | normalize =>
    obtain rfl := Except.ok.inj h
    obtain ⟨⟨g₁, c⟩, hn, rfl⟩ := Trail.map_eq_ok.1 ht
    exact .normalize hn

lemma attempt_request {e : Edit α} (h : (g.attempt e).result = .ok g') : g.Request g' := by
  unfold attempt at h
  split at h
  · next ht => exact apply_request ht h
  · obtain rfl := Except.ok.inj h
    exact .rejected

lemma Request.changes (h : g.Request g') : g.Changes g' := by
  cases h with
  | rejected => exact .refl
  | declare h => exact .single (.declare h)
  | rule _ _ h => exact .single (.insert h)
  | tag => exact .single .tag
  | normalize h => exact normalize_changes h

/-- A rule whose members have been found can be put in. -/
lemma insertRule_of_resolveRule (hg : g.WellFormed) {p : Nat} {as : List α} {r : List Nat}
    (hp : p < g.symbols.length) (ht : g.isTerminal p = false) (h : g.resolveRule p as = .ok r) :
    ∃ g', (g.insertRule p r).result = .ok g' := by
  have hlt : ∀ m ∈ r, m < g.symbols.length := by
    intro m hm
    obtain ⟨a, ha⟩ := index?_of_mem_resolveRule h m hm
    exact lt_of_ids (ids_of_index? hg ha)
  have hne : r ≠ [] := by
    rintro rfl
    cases as with
    | nil => simp [resolveRule] at h
    | cons a as =>
      simp only [resolveRule, List.isEmpty_cons, Bool.false_eq_true, if_false, resolve] at h
      split at h
      · cases h
      · obtain ⟨r, -, hr⟩ := except_map_eq_ok.1 h
        cases hr
  exact ⟨_, insertRule_eq_ok.2 ⟨hp, ht, hne, hlt, rfl⟩⟩

/-- Only normalisation can break off after it was begun. -/
lemma apply_goes_through (hg : g.WellFormed) {e : Edit α} (he : e ≠ .normalize)
    {t : Trail Record (Grammar α)} (h : g.apply e = .ok t) : ∃ g', t.result = .ok g' := by
  cases e with
  | declare a terminal =>
    obtain ⟨x, -, rfl⟩ := except_map_eq_ok.1 h
    exact ⟨x.2, rfl⟩
  | addRule a as =>
    obtain ⟨p, r, hp, ht, hr, rfl⟩ := addRule_eq_ok.1 h
    exact insertRule_of_resolveRule hg (lt_of_ids (ids_of_index? hg hp)) ht hr
  | addRuleToStart as =>
    obtain ⟨r, hr, rfl⟩ := addRuleToStart_eq_ok.1 h
    exact insertRule_of_resolveRule hg hg.start_lt hg.start_nonterminal hr
  | assignTag a b =>
    obtain ⟨g', -, rfl⟩ := except_map_eq_ok.1 h
    exact ⟨g', rfl⟩
  | normalize => exact absurd rfl he

/-- There is a symbol more if one was declared. -/
lemma length_of_apply {e : Edit α} (he : e ≠ .normalize) {t : Trail Record (Grammar α)}
    (h : g.apply e = .ok t) (ht : t.result = .ok g') :
    g'.symbols.length = g.symbols.length + if e.declares then 1 else 0 := by
  cases e with
  | declare a terminal =>
    obtain ⟨x, hd, rfl⟩ := except_map_eq_ok.1 h
    obtain rfl := Except.ok.inj ht
    obtain ⟨-, -, rfl⟩ := declare_eq_ok.1 hd
    exact List.length_append
  | addRule a as =>
    obtain ⟨p, r, -, -, -, rfl⟩ := addRule_eq_ok.1 h
    obtain ⟨-, -, -, -, rfl⟩ := insertRule_eq_ok.1 ht
    exact length_withRule
  | addRuleToStart as =>
    obtain ⟨r, -, rfl⟩ := addRuleToStart_eq_ok.1 h
    obtain ⟨-, -, -, -, rfl⟩ := insertRule_eq_ok.1 ht
    exact length_withRule
  | assignTag a b =>
    obtain ⟨g₁, ha, rfl⟩ := except_map_eq_ok.1 h
    obtain rfl := Except.ok.inj ht
    obtain ⟨i, -, rfl⟩ := assignTag_eq_ok.1 ha
    exact length_withTag
  | normalize => exact absurd rfl he

/-- What every request keeps, all of them keep. -/
lemma attemptAll_keeps (I : Grammar α → Prop) (hI : ∀ g g', I g → g.Request g' → I g')
    {es : List (Edit α)} (hg : I g) (h : (g.attemptAll es).result = .ok g') : I g' :=
  Trail.foldlM_keeps I (fun b _ _ b' hb h => hI b b' hb (attempt_request h)) hg h

lemma attemptAll_changes {es : List (Edit α)} (h : (g.attemptAll es).result = .ok g') :
    g.Changes g' :=
  attemptAll_keeps (fun c => g.Changes c) (fun _ _ hc hr => hc.trans hr.changes) .refl h

lemma Granted.attemptAll {es : List (Edit α)} (h : g.Granted es g') :
    (g.attemptAll es).result = .ok g' := by
  induction h with
  | nil => rfl
  | cons h ht _ ih =>
    rw [Grammar.attemptAll, List.foldlM_cons, Trail.bind_eq_ok]
    exact ⟨_, by rw [attempt, h, ht], ih⟩

lemma Granted.changes {es : List (Edit α)} (h : g.Granted es g') : g.Changes g' :=
  attemptAll_changes h.attemptAll

lemma max_pos (w : Width) : 0 < w.max := by cases w <;> decide

/-- A new grammar has one symbol, its start, and nothing else. -/
lemma create_eq_ok {w : Width} {a : α} : create w a = .ok g ↔ w.bits ≤ 64 ∧
    g = { width := w, symbols := [{ id := .user a, isTerminal := false }], start := 0 } := by
  have hp : ({ width := w, symbols := [], start := 0 } : Grammar α).push (.user a) false =
      .ok (0, { width := w, symbols := [{ id := .user a, isTerminal := false }], start := 0 }) :=
    push_eq_ok.2 ⟨max_pos w, by simp, by simp [append]⟩
  simp only [create, hp]
  split
  · next h => simp [Nat.not_le.2 h]
  · next h =>
    simp only [Nat.le_of_not_lt h, true_and]
    constructor
    · exact fun h => (Except.ok.inj h).symm
    · rintro rfl
      rfl

lemma create_wellFormed {w : Width} {a : α} (h : create w a = .ok g) : g.WellFormed := by
  obtain ⟨hw, rfl⟩ := create_eq_ok.1 h
  let blank : Grammar α := { width := w, symbols := [], start := 0 }
  let single : Grammar α :=
    { width := w, symbols := [{ id := .user a, isTerminal := false }], start := 0 }
  have hr : ∀ i, single.rules i = blank.rules i := rules_append rfl
  have hp : ∀ i, single.parents i = blank.parents i := parents_append rfl
  have hr0 : ∀ i, blank.rules i = [] := fun _ => rfl
  have hp0 : ∀ i, blank.parents i = [] := fun _ => rfl
  change single.WellFormed
  refine ⟨hw, max_pos w, Nat.one_pos, rfl, fun i _ => hr i, ?_, ?_, ?_, ?_, ?_⟩
  all_goals intro i
  all_goals simp only [hr, hp, hr0, hp0]
  · exact fun _ h => absurd h List.not_mem_nil
  · exact fun _ h => absurd h List.not_mem_nil
  · intro p
    constructor
    · exact nofun
    · exact fun ⟨_, h, _⟩ => absurd h List.not_mem_nil
  · exact List.nodup_nil
  · exact List.nodup_nil

lemma Reachable.changes (h : g.Reachable) :
    ∃ (w : Width) (a : α) (g₀ : Grammar α), create w a = .ok g₀ ∧ g₀.Changes g := by
  obtain ⟨w, a, g₀, es, hc, he⟩ := h
  exact ⟨w, a, g₀, hc, attemptAll_changes he⟩

lemma create_identified {w : Width} {a : α} (h : create w a = .ok g) : g.Identified := by
  obtain ⟨-, rfl⟩ := create_eq_ok.1 h
  exact ⟨⟨a, rfl⟩, List.nodup_singleton _, rfl, rfl⟩

lemma create_consistent {w : Width} {a : α} (h : create w a = .ok g) : g.Consistent :=
  ⟨create_wellFormed h, create_identified h⟩

theorem Reachable.consistent (h : g.Reachable) : g.Consistent := by
  obtain ⟨w, a, g₀, hc, hch⟩ := h.changes
  exact (create_consistent hc).changes hch

lemma Reachable.wellFormed (h : g.Reachable) : g.WellFormed := h.consistent.wellFormed

/-! ### A grammar that requests lead to, and its normal form -/

/-- `S → S a S | a`, which is ambiguous and has no unit rules. -/
def alternating : Grammar String where
  width := .w8
  symbols := [
    { id := .user "S", isTerminal := false, rules := [[0, 1, 0], [1]], parents := [0] },
    { id := .user "a", isTerminal := true, parents := [0] }]
  start := 0

def alternatingResult : Grammar String where
  width := .w8
  symbols := [
    { id := .user "S", isTerminal := false, rules := [[1], [0, 4]], parents := [0, 2, 4] },
    { id := .user "a", isTerminal := true, parents := [0, 3, 2] },
    { id := .start 0, isTerminal := false, rules := [[1], [0, 4]] },
    { id := .synthetic 0, isTerminal := false, rules := [[1]], parents := [4] },
    { id := .synthetic 1, isTerminal := false, rules := [[3, 0]], parents := [0, 2] }]
  start := 2
  nextSynthetic := 2
  nextStart := 1

def alternatingSnapshot : NormalGrammar String where
  width := .w8
  ids := [.user "S", .user "a", .start 0, .synthetic 0, .synthetic 1]
  tags := #[.auto 0, .auto 1, .root, .auto 2, .auto 3]
  terminals := ⟨5, [2]⟩
  rules := #[[.terminal 1, .pair 0 4], [], [.terminal 1, .pair 0 4], [.terminal 1], [.pair 3 0]]
  parents := #[⟨5, [21]⟩, ⟨5, [13]⟩, ⟨5, [0]⟩, ⟨5, [16]⟩, ⟨5, [5]⟩]
  start := 2

lemma alternating_reachable : alternating.Reachable :=
  ⟨.w8, "S", _, [.declare "a" true, .addRule "S" ["S", "a", "S"], .addRule "S" ["a"]], rfl, rfl⟩

lemma alternating_normalize :
    alternating.normalize.result = .ok (alternatingResult, alternatingSnapshot) := rfl

lemma alternatingResult_reachable : alternatingResult.Reachable :=
  ⟨.w8, "S", _, [.declare "a" true, .addRule "S" ["S", "a", "S"], .addRule "S" ["a"], .normalize],
    rfl, rfl⟩

/-! ### The invariant in full -/

/-- **Grammars that requests lead to do not contradict themselves.** Parents are those that rules
make, terminals have no rules, rules are nonempty, all indices are those of symbols, the start is a
non-terminal, and there are as many identities as symbols, for all of which there are indices. -/
theorem reachable_invariant (hg : g.Reachable) :
    (∀ s p, p ∈ g.parents s ↔ ∃ r ∈ g.rules p, s ∈ r) ∧
      (∀ s, (g.parents s).Nodup ∧ (g.rules s).Nodup) ∧
      (∀ s, g.isTerminal s = true → g.rules s = []) ∧
      (∀ p, ∀ r ∈ g.rules p, r ≠ [] ∧ ∀ m ∈ r, m < g.symbols.length) ∧
      (∀ s, ∀ p ∈ g.parents s, p < g.symbols.length) ∧
      g.start < g.symbols.length ∧ g.isTerminal g.start = false ∧
      (OrderedSet.ofList g.ids).length = g.symbols.length ∧
      g.symbols.length ≤ g.width.max := by
  have hw := hg.wellFormed
  have hids : (OrderedSet.ofList g.ids).length = g.symbols.length := by
    rw [OrderedSet.ofList_of_nodup hg.consistent.identified.nodup, length_ids]
  exact ⟨hw.mem_parents, fun s => ⟨hw.nodup_parents s, hw.nodup_rules s⟩, hw.rules_terminal,
    fun p r hr => ⟨hw.rule_ne_nil p r hr, hw.member_lt p r hr⟩, fun _ _ => hw.parent_lt,
    hw.start_lt, hw.start_nonterminal, hids, hw.length_le⟩

/-- After normalisation the terminal keeps its parent `S` through the one of two rules that is
left. -/
theorem reachable_invariant_alternating : alternatingResult.Reachable ∧
    (0 ∈ alternatingResult.parents 1 ↔ ∃ r ∈ alternatingResult.rules 0, 1 ∈ r) ∧
      ((alternatingResult.parents 1).Nodup ∧ (alternatingResult.rules 1).Nodup) ∧
      alternatingResult.rules 1 = [] ∧ ([0, 4] ≠ [] ∧ ∀ m ∈ [0, 4], m < 5) ∧
      (∀ p ∈ alternatingResult.parents 1, p < 5) ∧ 2 < 5 ∧
      alternatingResult.isTerminal 2 = false ∧
      (OrderedSet.ofList alternatingResult.ids).length = 5 ∧ 5 ≤ Width.w8.max := by
  obtain ⟨hp, hn, ht, hr, hlt, hs, hst, hids, hmax⟩ :=
    reachable_invariant alternatingResult_reachable
  exact ⟨alternatingResult_reachable, hp 1 0, hn 1, ht 1 rfl, hr 0 [0, 4] (by decide), hlt 1, hs,
    hst, hids, hmax⟩

end Chomsky.Grammar
