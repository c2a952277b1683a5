import Chomsky.Proofs.Grammar.Stable
import Chomsky.Proofs.Normalize.StartSymbol

/-!
Synthetic symbols. Each of them gets one normal rule when it is made, and no request changes that
rule afterwards. A synthetic symbol in the rule of another one was made later or stands for a
terminal, so that no chain of such rules comes back to where it began.
-/

namespace Chomsky.Grammar

open Relation

variable {α : Type} {g g' : Grammar α} {p i : Nat} {r : List Nat}

/-- Symbols that were made for a part of a rule. -/
def IsSynthetic (g : Grammar α) (i : Nat) : Prop := ∃ k, g.ids[i]? = some (.synthetic k)

/-- Both symbols are synthetic, and the first one occurs in the rule of the second. -/
def PartOf (g : Grammar α) (i j : Nat) : Prop :=
  g.IsSynthetic i ∧ g.IsSynthetic j ∧ ∃ r ∈ g.rules j, i ∈ r

/-- The symbol has a terminal as its only rule. -/
def StandsIn (g : Grammar α) (i : Nat) : Prop := ∃ t, g.isTerminal t = true ∧ g.rules i = [[t]]

/-- Which synthetic symbols a rule `r` of `p` may contain. -/
def RuleParts (g : Grammar α) (p : Nat) (r : List Nat) : Prop :=
  ∀ m ∈ r, g.IsSynthetic m → g.StandsIn m ∨ r.length ≤ 2 ∧ (g.IsSynthetic p → p < m)

/-- The invariant of synthetic symbols. -/
structure SyntheticRules (g : Grammar α) : Prop where
  normal : ∀ i, g.IsSynthetic i → ∃ r, g.rules i = [r] ∧ g.isNormalRule r = true
  parts : ∀ p, ∀ r ∈ g.rules p, g.RuleParts p r

/-! ### What synthetic symbols are -/

lemma IsSynthetic.lt (h : g.IsSynthetic i) : i < g.symbols.length := by
  obtain ⟨k, hk⟩ := h
  exact lt_of_ids hk

lemma not_isSynthetic_of_user {a : α} (h : g.ids[i]? = some (.user a)) : ¬g.IsSynthetic i := by
  rintro ⟨k, hk⟩
  rw [h] at hk
  cases hk

lemma isNormalRule_congr (h : ∀ m ∈ r, g'.isTerminal m = g.isTerminal m) :
    g'.isNormalRule r = g.isNormalRule r := by
  match r with
  | [] => rfl
  | [t] => simpa [isNormalRule] using h t
  | [l, m] => simp [isNormalRule, h l, h m]
  | _ :: _ :: _ :: _ => rfl

namespace SyntheticRules

lemma rule_eq (h : g.SyntheticRules) (hi : g.IsSynthetic i) (hr : r ∈ g.rules i) :
    g.rules i = [r] ∧ g.isNormalRule r = true := by
  obtain ⟨s, hs, hn⟩ := h.normal i hi
  rw [hs, List.mem_singleton] at hr
  rw [hr]
  exact ⟨hs, hn⟩

/-- A symbol with a rule that is not normal is not synthetic. -/
lemma not_isSynthetic (h : g.SyntheticRules) (hr : r ∈ g.rules p) (hn : g.isNormalRule r = false) :
    ¬g.IsSynthetic p := by
  intro hp
  have hnormal := (h.rule_eq hp hr).2
  rw [hn] at hnormal
  cases hnormal

lemma nonterminal (h : g.SyntheticRules) (hw : g.WellFormed) (hi : g.IsSynthetic i) :
    g.isTerminal i = false := by
  obtain ⟨r, hr, -⟩ := h.normal i hi
  exact hw.nonterminal_of_mem (hr ▸ List.mem_singleton_self r)

/-- A part that has a synthetic part itself was made later than what it is a part of. -/
lemma lt_of_partOf (h : g.SyntheticRules) (hw : g.WellFormed) {j k : Nat} (hij : g.PartOf i j)
    (hjk : g.PartOf j k) : k < j := by
  obtain ⟨-, hk, s, hs, hjs⟩ := hjk
  obtain ⟨hi, hj, r, hr, hir⟩ := hij
  obtain ⟨t, ht, hrule⟩ | ⟨-, hlt⟩ := h.parts k s hs j hjs hj
  · -- then the only part of `j` is a terminal
    rw [hrule, List.mem_singleton] at hr
    rw [hr, List.mem_singleton] at hir
    have hnon := h.nonterminal hw hi
    rw [hir, ht] at hnon
    cases hnon
  · exact hlt hk

/-- **No synthetic symbol is a part of itself**, whatever the number of steps. -/
theorem not_partOf_self (h : g.SyntheticRules) (hw : g.WellFormed) (i : Nat) :
    ¬TransGen g.PartOf i i := by
  intro hcycle
  -- along a chain that something leads into, the symbols become earlier and earlier
  have hdown : ∀ {j k}, TransGen g.PartOf j k → ∀ l, g.PartOf l j → k < j := by
    intro j k hjk
    induction hjk using TransGen.head_induction_on with
    | single hjk => exact fun l hlj => h.lt_of_partOf hw hlj hjk
    | head hjm _ ih =>
      intro l hlj
      have hm := h.lt_of_partOf hw hlj hjm
      have hk := ih _ hjm
      omega
  obtain ⟨m, -, hmi⟩ := TransGen.tail'_iff.1 hcycle
  exact absurd (hdown hcycle m hmi) (Nat.lt_irrefl i)

end SyntheticRules

variable [DecidableEq α]

/-! ### What later changes leave of them -/

lemma Changes.isSynthetic_iff (h : g.Changes g') (hi : i < g.symbols.length) :
    g'.IsSynthetic i ↔ g.IsSynthetic i := by
  obtain ⟨new, hnew⟩ := h.ids_extends
  unfold IsSynthetic
  rw [← hnew, List.getElem?_append_left (by rwa [length_ids])]

/-- `g'` comes from `g` by changes that leave the rules of synthetic symbols alone. -/
structure Retains (g g' : Grammar α) : Prop where
  changes : g.Changes g'
  rules : ∀ i, g.IsSynthetic i → g'.rules i = g.rules i

namespace Retains

lemma refl (g : Grammar α) : g.Retains g := ⟨.refl, fun _ _ => rfl⟩

/-- Changes of the rules of one symbol, which is not synthetic, and of new symbols. -/
lemma of_ne (hc : g.Changes g') (hp : ¬g.IsSynthetic p)
    (h : ∀ i < g.symbols.length, i ≠ p → g'.rules i = g.rules i) : g.Retains g' := by
  refine ⟨hc, fun i hi => h i hi.lt ?_⟩
  rintro rfl
  exact hp hi

lemma isSynthetic (h : g.Retains g') (hi : g.IsSynthetic i) : g'.IsSynthetic i :=
  (h.changes.isSynthetic_iff hi.lt).2 hi

lemma trans {g'' : Grammar α} (h : g.Retains g') (h' : g'.Retains g'') : g.Retains g'' where
  changes := h.changes.trans h'.changes
  rules i hi := (h'.rules i (h.isSynthetic hi)).trans (h.rules i hi)

lemma isNormalRule (h : g.Retains g') (hr : ∀ m ∈ r, m < g.symbols.length) :
    g'.isNormalRule r = g.isNormalRule r :=
  isNormalRule_congr fun m hm => h.changes.isTerminal_of_lt (hr m hm)

lemma standsIn (h : g.Retains g') (hi : g.IsSynthetic i) (hs : g.StandsIn i) : g'.StandsIn i := by
  obtain ⟨t, ht, hrule⟩ := hs
  refine ⟨t, ?_, (h.rules i hi).trans hrule⟩
  rw [h.changes.isTerminal_of_lt (lt_of_isTerminal ht), ht]

/-- A rule that was there may come up again at the same symbol, or at one that is not synthetic. -/
lemma ruleParts (h : g.Retains g') (hr : ∀ m ∈ r, m < g.symbols.length) {q : Nat}
    (hparts : g.RuleParts p r) (hq : g'.IsSynthetic q → q = p ∧ g.IsSynthetic p) :
    g'.RuleParts q r := by
  intro m hm hsyn
  have hsyn := (h.changes.isSynthetic_iff (hr m hm)).1 hsyn
  obtain hs | ⟨hlen, hlt⟩ := hparts m hm hsyn
  · exact .inl (h.standsIn hsyn hs)
  · refine .inr ⟨hlen, fun hsq => ?_⟩
    obtain ⟨rfl, hp⟩ := hq hsq
    exact hlt hp

/-- It is enough to look at the new symbols and at the new rules. -/
lemma syntheticRules (h : g.Retains g') (hw : g.WellFormed) (hg : g.SyntheticRules)
    (hnew : ∀ i, g.symbols.length ≤ i → g'.IsSynthetic i →
      ∃ r, g'.rules i = [r] ∧ g'.isNormalRule r = true)
    (hparts : ∀ p, ∀ r ∈ g'.rules p, r ∈ g.rules p ∨ g'.RuleParts p r) : g'.SyntheticRules where
  normal i hi := by
    rcases Nat.lt_or_ge i g.symbols.length with hlt | hge
    · have hi := (h.changes.isSynthetic_iff hlt).1 hi
      obtain ⟨r, hr, hn⟩ := hg.normal i hi
      have hlt := hw.member_lt i r (hr ▸ List.mem_singleton_self r)
      exact ⟨r, (h.rules i hi).trans hr, (h.isNormalRule hlt).trans hn⟩
    · exact hnew i hge hi
  parts p r hr := by
    rcases hparts p r hr with hr | hr
    · refine h.ruleParts (hw.member_lt p r hr) (hg.parts p r hr) fun hp => ⟨rfl, ?_⟩
      exact (h.changes.isSynthetic_iff (lt_of_mem_rules hr)).1 hp
    · exact hr

end Retains

/-! ### The steps of a pass -/

omit [DecidableEq α] in
lemma isNormalRule_of_needsShield (h : g.needsShield r = true) : g.isNormalRule r = false := by
  obtain ⟨hlen, t, htr, ht⟩ := needsShield_eq_true.1 h
  by_contra hn
  obtain ⟨t', rfl, -⟩ | ⟨l, m, rfl, hl, hm⟩ := isNormalRule_iff.1 (by simpa using hn)
  · simp at hlen
  · rcases (by simpa using htr : t = l ∨ t = m) with rfl | rfl
    · simp [hl] at ht
    · simp [hm] at ht

lemma isolateStart_synthetic (hw : g.WellFormed) (hg : g.SyntheticRules)
    (h : g.isolateStart.result = .ok g') : g'.SyntheticRules ∧ g.Retains g' := by
  obtain ⟨-, rfl⟩ | ⟨-, hc, hids, -⟩ := isolateStart_spec h
  · exact ⟨hg, .refl g'⟩
  · have hret : g.Retains g' :=
      ⟨isolateStart_changes h, fun i hi => hc.rules_of_lt hi.lt⟩
    -- the new symbol is a start symbol
    have hold : ∀ i, g'.IsSynthetic i → i < g.symbols.length := by
      intro i hi
      by_contra hlt
      obtain ⟨k, hk⟩ := hi
      have hi := lt_of_ids hk
      rw [hc.length] at hi
      obtain rfl : i = g.ids.length := by rw [length_ids]; omega
      rw [hids, List.getElem?_concat_length] at hk
      cases hk
    refine ⟨hret.syntheticRules hw hg (fun i hge hi => absurd (hold i hi) (by omega)) ?_, hret⟩
    intro p r hr
    rw [hc.rules] at hr
    split at hr
    · next hp =>
      rw [List.mem_singleton] at hr
      refine .inr fun m _ _ => .inr ⟨by simp [hr], fun hsyn => ?_⟩
      exact absurd (hold p hsyn) (by omega)
    · exact .inl hr

/-- A new symbol stands for the terminal that it was made for, and the rule that comes in contains
such symbols and non-terminals of the rule that goes. -/
lemma shieldRule_synthetic (hw : g.WellFormed) (hg : g.SyntheticRules) (hr : r ∈ g.rules p)
    (hshield : g.needsShield r = true) (h : (shieldRule p g r).result = .ok g') :
    g'.SyntheticRules ∧ g.Retains g' := by
  have hch := (shieldRule_reshapes h).changes
  obtain ⟨r', g₁, g₂, hm, hins, hrem⟩ := shieldRule_eq_ok.1 h
  have hs := shieldMembers_spec hm
  obtain ⟨hp₁, -, -, -, rfl⟩ := insertRule_eq_ok.1 hins
  obtain ⟨-, -, rfl⟩ := removeRule_eq_ok.1 hrem
  have hp := lt_of_mem_rules hr
  have hpn := hg.not_isSynthetic hr (isNormalRule_of_needsShield hshield)
  have hrules : ∀ i, i ≠ p → ((g₁.withRule p r').withoutRule p r).rules i = g₁.rules i := by
    intro i hi
    rw [rules_withoutRule, if_neg hi, rules_withRule hp₁, if_neg hi]
  have hret : g.Retains ((g₁.withRule p r').withoutRule p r) :=
    .of_ne hch hpn fun i hi hip => (hrules i hip).trans (hs.rules i hi)
  have hfresh : ∀ i, g.symbols.length ≤ i → i < g₁.symbols.length →
      ((g₁.withRule p r').withoutRule p r).StandsIn i := by
    intro i hge hlt
    obtain ⟨t, ht, hrule⟩ := hs.fresh i hge hlt
    refine ⟨t, ?_, by rw [hrules i (by omega), hrule]⟩
    rw [hch.isTerminal_of_lt (lt_of_isTerminal ht), ht]
  refine ⟨hret.syntheticRules hw hg (fun i hge hi => ?_) fun q s hsq => ?_, hret⟩
  · obtain ⟨t, ht, hrule⟩ := hfresh i hge (by simpa using hi.lt)
    exact ⟨[t], hrule, ht⟩
  · obtain hsq | ⟨rfl, rfl⟩ := (mem_rules_withRule hp₁).1 (mem_rules_of_withoutRule hsq)
    · rcases Nat.lt_or_ge q g.symbols.length with hq | hq
      · rw [hs.rules q hq] at hsq
        exact .inl hsq
      · -- the rule of a new symbol is a terminal, which is not synthetic
        obtain ⟨t, ht, hrule⟩ := hs.fresh q hq (lt_of_mem_rules hsq)
        rw [hrule, List.mem_singleton] at hsq
        subst hsq
        refine .inr fun m hm hsyn => ?_
        obtain rfl := List.mem_singleton.1 hm
        have hnon := hg.nonterminal hw ((hch.isSynthetic_iff (lt_of_isTerminal ht)).1 hsyn)
        rw [ht] at hnon
        cases hnon
    · refine .inr fun m hm hsyn => ?_
      obtain ⟨hmr, -⟩ | ⟨hge, hlt⟩ := hs.member_cases hm
      · have hparts := hret.ruleParts (hw.member_lt q r hr) (hg.parts q r hr)
          (fun hq => absurd ((hch.isSynthetic_iff hp).1 hq) hpn)
        rw [hs.members.length_eq]
        exact hparts m hmr hsyn
      · exact .inl (hfresh m hge hlt)

omit [DecidableEq α] in
/-- A pair of a chain goes on to a symbol made later, or has a member of the rule that was split. -/
lemma Chains.member_cases (hs : g.Chains p r (tailFrom g.symbols.length r) g') (hw' : g'.WellFormed)
    {q m : Nat} {b : List Nat} (hq : g.symbols.length ≤ q) (hb : b ∈ g'.rules q) (hm : m ∈ b) :
    m < g.symbols.length ∧ m ∈ r ∨ q < m := by
  have hlen := hs.length
  have hqlt := lt_of_mem_rules hb
  have hlt := hw'.member_lt q b hb
  obtain ⟨b', hb2, hbody, hrule⟩ := hs.fresh q hq hqlt
  obtain rfl : b = b' := by simpa [hrule] using hb
  rcases Nat.lt_or_ge m g.symbols.length with hmlt | hmge
  · have hmem : m ∈ b.flatMap (tailFrom g.symbols.length r) := by
      refine List.mem_flatMap.2 ⟨m, hm, ?_⟩
      rw [tailFrom_of_lt hmlt]
      exact List.mem_singleton_self m
    rw [hbody, tailFrom, if_neg (by omega)] at hmem
    exact .inl ⟨hmlt, List.mem_of_mem_drop hmem⟩
  · -- each member stands for less than the symbol, and what comes later stands for less
    have htail : ∀ x < g'.symbols.length, g.symbols.length ≤ x →
        (tailFrom g.symbols.length r x).length + (x - g.symbols.length + 1) = r.length := by
      intro x hx hge
      rw [tailFrom, if_neg (by omega), List.length_drop]
      omega
    have hpos : ∀ x ∈ b, 0 < (tailFrom g.symbols.length r x).length := by
      intro x hx
      rcases Nat.lt_or_ge x g.symbols.length with hxlt | hxge
      · rw [tailFrom_of_lt hxlt]
        exact Nat.one_pos
      · have := htail x (hlt x hx) hxge
        have := hlt x hx
        omega
    have hm' := htail m (hlt m hm) hmge
    have hq' := htail q hqlt hq
    have hsum := congrArg List.length hbody
    obtain ⟨x, y, rfl⟩ := List.length_eq_two.1 hb2
    have hx := hpos x (by simp)
    have hy := hpos y (by simp)
    simp only [List.flatMap_cons, List.flatMap_nil, List.append_nil, List.length_append] at hsum
    right
    rcases (by simpa using hm : m = x ∨ m = y) with rfl | rfl <;> omega

/-- The symbols of a chain have pairs as their rules, and a pair goes on to symbols made later. -/
lemma splitRule_synthetic (hw : g.WellFormed) (hg : g.SyntheticRules) (hr : r ∈ g.rules p)
    (hlong : 2 < r.length) (hterm : ∀ m ∈ r, g.isTerminal m = false)
    (h : (splitRule p g r).result = .ok g') : g'.SyntheticRules ∧ g.Retains g' := by
  have hch := (splitRule_reshapes h).changes
  obtain ⟨g₁, hc, hrem⟩ := splitRule_eq_ok.1 h
  have hw₁ := hw.changes (insertChain_reshapes hc).changes
  obtain ⟨-, -, rfl⟩ := removeRule_eq_ok.1 hrem
  have hp := lt_of_mem_rules hr
  have hlt := hw.member_lt p r hr
  have hs := insertChain_spec (h := tailFrom g.symbols.length r) hp (by omega)
    (fun m hm => tailFrom_of_lt (hlt m hm)) (fun j => tailFrom_add _ j r) hc
  have hpn : ¬g.IsSynthetic p := by
    refine hg.not_isSynthetic hr ?_
    match r with
    | _ :: _ :: _ :: _ => rfl
  have hrules : ∀ i, i ≠ p → (g₁.withoutRule p r).rules i = g₁.rules i := by
    intro i hi
    rw [rules_withoutRule, if_neg hi]
  have hret : g.Retains (g₁.withoutRule p r) :=
    .of_ne hch hpn fun i hi hip => (hrules i hip).trans (hs.rules i hi hip)
  refine ⟨hret.syntheticRules hw hg (fun i hge hi => ?_) fun q s hsq => ?_, hret⟩
  · obtain ⟨b, hb2, -, hb⟩ := hs.fresh i hge (by simpa using hi.lt)
    refine ⟨b, by rw [hrules i (by omega), hb], ?_⟩
    have hbi : b ∈ g₁.rules i := hb ▸ List.mem_singleton_self b
    have hnon : ∀ m ∈ b, g.isTerminal m = false := by
      refine (nonterminal_insertChain hterm hc hbi).resolve_left fun hmem => ?_
      exact absurd (lt_of_mem_rules hmem) (by omega)
    obtain ⟨l, m, rfl⟩ := List.length_eq_two.1 hb2
    simp [isNormalRule, hs.isTerminal, hnon]
  · have hsq := mem_rules_of_withoutRule hsq
    by_cases hold : s ∈ g.rules q
    · exact .inl hold
    · have hs2 := (mem_rules_insertChain (by omega) hc hsq).resolve_left hold
      refine .inr fun m hm hsyn => ?_
      rcases Nat.lt_or_ge q g.symbols.length with hq | hq
      · -- the pair at the head of the chain
        have hqp : q = p := by
          by_contra hqp
          rw [hs.rules q hq hqp] at hsq
          exact hold hsq
        refine .inr ⟨Nat.le_of_eq hs2, fun hsynq => ?_⟩
        rw [hqp] at hsynq
        exact absurd ((hch.isSynthetic_iff hp).1 hsynq) hpn
      · obtain ⟨hmlt, hmr⟩ | hqm := hs.member_cases hw₁ hq hsq hm
        · -- a member of a long rule is not synthetic, or stands for a terminal
          have hsyn := (hch.isSynthetic_iff hmlt).1 hsyn
          obtain hstand | ⟨hle, -⟩ := hg.parts p r hr m hmr hsyn
          · exact .inl (hret.standsIn hsyn hstand)
          · omega
        · exact .inr ⟨Nat.le_of_eq hs2, fun _ => hqm⟩

/-- A synthetic symbol has no unit rule, so inlining does nothing to it. -/
lemma inlineUnits_synthetic (hw : g.WellFormed) (hg : g.SyntheticRules)
    (h : g.inlineUnits.result = .ok g') : g'.SyntheticRules ∧ g.Retains g' := by
  obtain ⟨hsame, hrules⟩ := inlineUnits_spec hw h
  have hch := (inlineUnits_reshapes h).changes
  have hret : g.Retains g' := by
    refine ⟨hch, fun i hi => ?_⟩
    rw [hrules]
    refine settledRules_of_unitTargets_eq_nil hw ?_
    by_contra hne
    obtain ⟨q, hq, hqt⟩ := exists_unitStep hw hne
    have hn := (hg.rule_eq hi hq).2
    simp [isNormalRule, hqt] at hn
  have hlen := hsame.length
  refine ⟨hret.syntheticRules hw hg (fun i hge hi => absurd hi.lt (by omega)) ?_, hret⟩
  intro p r hr
  by_cases hp : g.IsSynthetic p
  · rw [hret.rules p hp] at hr
    exact .inl hr
  · obtain ⟨q, -, hq, -⟩ := (mem_rules_inlineUnits hw h).1 hr
    refine .inr (hret.ruleParts (hw.member_lt q r hq) (hg.parts q r hq) fun hsyn => ?_)
    exact absurd ((hch.isSynthetic_iff (by rw [← hlen]; exact hsyn.lt)).1 hsyn) hp

lemma shieldTerminals_synthetic (hw : g.WellFormed) (hg : g.SyntheticRules)
    (h : g.shieldTerminals.result = .ok g') : g'.SyntheticRules ∧ g.Retains g' := by
  refine shieldRule_rewrites.keeps_all (fun c => c.SyntheticRules ∧ g.Retains c) ?_ hw
    ⟨hg, .refl g⟩ h
  intro c p r c' hwc ⟨hc, hret⟩ hr hp h
  obtain ⟨hc', hret'⟩ := shieldRule_synthetic hwc hc hr hp h
  exact ⟨hc', hret.trans hret'⟩

lemma splitLongRules_synthetic (hw : g.WellFormed) (hg : g.SyntheticRules)
    (hshield : ∀ i, ∀ s ∈ g.rules i, g.needsShield s = false)
    (h : g.splitLongRules.result = .ok g') : g'.SyntheticRules ∧ g.Retains g' := by
  have hkeep := splitRule_rewrites.keeps_all
    (fun c => (c.SyntheticRules ∧ g.Retains c) ∧ ∀ i, ∀ s ∈ c.rules i, c.needsShield s = false)
    ?_ hw ⟨⟨hg, .refl g⟩, hshield⟩ h
  · exact hkeep.1
  · intro c p r c' hwc ⟨⟨hc, hret⟩, hsh⟩ hr hp h
    have hlong : 2 < r.length := of_decide_eq_true hp
    have hterm := nonterminal_of_needsShield (by omega) (hsh p r hr)
    obtain ⟨hc', hret'⟩ := splitRule_synthetic hwc hc hr hlong hterm h
    exact ⟨⟨hc', hret.trans hret'⟩, needsShield_splitRule hsh hlong h⟩

/-! ### Passes and requests -/

/-- **A pass makes synthetic symbols with normal rules, and changes none that is there.** -/
theorem pass_synthetic (hw : g.WellFormed) (hg : g.SyntheticRules)
    (h : g.pass.result = .ok g') : g'.SyntheticRules ∧ g.Retains g' := by
  obtain ⟨g₁, g₂, g₃, h₁, h₂, h₃, -, h₄⟩ := pass_eq_ok.1 h
  obtain ⟨hg₁, hret₁⟩ := isolateStart_synthetic hw hg h₁
  have hw₁ := hw.changes hret₁.changes
  obtain ⟨hg₂, hret₂⟩ := shieldTerminals_synthetic hw₁ hg₁ h₂
  have hw₂ := hw₁.changes hret₂.changes
  obtain ⟨hg₃, hret₃⟩ := splitLongRules_synthetic hw₂ hg₂
    (fun _ _ => needsShield_shieldTerminals hw₁ h₂) h₃
  have hw₃ := hw₂.changes hret₃.changes
  obtain ⟨hg₄, hret₄⟩ := inlineUnits_synthetic hw₃ hg₃ h₄
  exact ⟨hg₄, ((hret₁.trans hret₂).trans hret₃).trans hret₄⟩

lemma normalize_synthetic (hw : g.WellFormed) (hg : g.SyntheticRules) {c : NormalGrammar α}
    (h : g.normalize.result = .ok (g', c)) : g'.SyntheticRules ∧ g.Retains g' := by
  obtain ⟨⟨-, rfl⟩ | ⟨-, hp⟩, -⟩ := normalize_cases hw h
  · exact ⟨hg, .refl g'⟩
  · exact pass_synthetic hw hg hp

omit [DecidableEq α] in
/-- A start symbol is no synthetic symbol. -/
lemma StartsOnce.not_isSynthetic (h : g.StartsOnce) (hg : g.Consistent) :
    ¬g.IsSynthetic g.start := by
  rintro ⟨k, hk⟩
  cases h with
  | first _ hs =>
    obtain ⟨a, ha⟩ := hg.identified.named
    rw [hs, ha] at hk
    cases hk
  | created _ hid _ =>
    rw [hid] at hk
    cases hk

/-- A rule that is asked for has no synthetic symbol in it, and belongs to none. -/
lemma insertRule_synthetic (hg : g.Consistent) (hstart : g.StartsOnce) (hsyn : g.SyntheticRules)
    (hp : p = g.start ∨ ∃ a, g.index? a = some p) (hr : ∀ m ∈ r, ∃ a, g.index? a = some m)
    (h : (g.insertRule p r).result = .ok g') : g'.SyntheticRules ∧ g.Retains g' := by
  have hw := hg.wellFormed
  have hch : g.Changes g' := .single (.insert h)
  have hpn : ¬g.IsSynthetic p := by
    obtain rfl | ⟨a, ha⟩ := hp
    · exact hstart.not_isSynthetic hg
    · exact not_isSynthetic_of_user (ids_of_index? hw ha)
  obtain ⟨hlt, -, -, hm, rfl⟩ := insertRule_eq_ok.1 h
  have hret : g.Retains (g.withRule p r) := by
    refine .of_ne hch hpn fun i _ hip => ?_
    rw [rules_withRule hlt, if_neg hip]
  refine ⟨hret.syntheticRules hw hsyn (fun i hge hi => ?_) fun q s hs => ?_, hret⟩
  · exact absurd (length_withRule (g := g) ▸ hi.lt) (by omega)
  · refine ((mem_rules_withRule hlt).1 hs).imp_right ?_
    rintro ⟨-, rfl⟩ m hms hsynm
    obtain ⟨a, ha⟩ := hr m hms
    exact absurd ((hch.isSynthetic_iff (hm m hms)).1 hsynm)
      (not_isSynthetic_of_user (ids_of_index? hw ha))

/-- **Every request keeps the invariant and the rules of synthetic symbols.** -/
theorem request_synthetic (hg : g.Consistent) (hstart : g.StartsOnce) (hsyn : g.SyntheticRules)
    (h : g.Request g') : g'.SyntheticRules ∧ g.Retains g' := by
  have hw := hg.wellFormed
  have hch := h.changes
  cases h with
  | rejected => exact ⟨hsyn, .refl g⟩
  | declare hd =>
    obtain ⟨-, -, hx⟩ := declare_eq_ok.1 hd
    obtain ⟨-, rfl⟩ := Prod.mk.inj hx
    have hret : g.Retains _ := ⟨hch, fun i _ => rules_append rfl i⟩
    refine ⟨hret.syntheticRules hw hsyn (fun i hge hi => ?_) fun p r hr => .inl ?_, hret⟩
    · -- the new symbol has a name
      have hlt : i = g.ids.length := by
        have hlt := hi.lt
        simp only [List.length_append, List.length_singleton] at hlt
        rw [length_ids]
        omega
      obtain ⟨k, hk⟩ := hi
      rw [ids_append rfl, hlt, List.getElem?_concat_length] at hk
      cases hk
    · rwa [rules_append rfl] at hr
  | rule hp hr hi => exact insertRule_synthetic hg hstart hsyn hp hr hi
  | tag =>
    have hret : g.Retains _ := ⟨hch, fun i _ => rules_withTag i⟩
    refine ⟨hret.syntheticRules hw hsyn (fun i hge hi => ?_) fun p r hr => .inl ?_, hret⟩
    · exact absurd (length_withTag (g := g) ▸ hi.lt) (by omega)
    · rwa [rules_withTag] at hr
  | normalize hn => exact normalize_synthetic hw hsyn hn

/-! ### Runs -/

/-- What holds of all grammars that requests lead to, as far as start and synthetic symbols go. -/
structure Regular (g : Grammar α) : Prop where
  consistent : g.Consistent
  startsOnce : g.StartsOnce
  synthetic : g.SyntheticRules

lemma Regular.request (h : g.Regular) (hr : g.Request g') : g'.Regular ∧ g.Retains g' := by
  obtain ⟨hsyn, hret⟩ := request_synthetic h.consistent h.startsOnce h.synthetic hr
  exact ⟨⟨h.consistent.changes hr.changes, h.startsOnce.request h.consistent hr, hsyn⟩, hret⟩

lemma Regular.attemptAll {es : List (Edit α)} (h : g.Regular)
    (he : (g.attemptAll es).result = .ok g') : g'.Regular ∧ g.Retains g' := by
  refine attemptAll_keeps (fun c => c.Regular ∧ g.Retains c) ?_ ⟨h, .refl g⟩ he
  rintro c c' ⟨hc, hret⟩ hr
  obtain ⟨hc', hret'⟩ := hc.request hr
  exact ⟨hc', hret.trans hret'⟩

lemma create_regular {w : Width} {a : α} (h : create w a = .ok g) : g.Regular := by
  have hnone : (g.attemptAll []).result = .ok g := rfl
  refine ⟨⟨create_wellFormed h, create_identified h⟩, ?_, ?_⟩
  · exact attemptAll_startsOnce h hnone
  · obtain ⟨-, rfl⟩ := create_eq_ok.1 h
    have hnil : ∀ i, rules ⟨w, [{ id := .user a, isTerminal := false }], 0, 0, 0⟩ i = [] :=
      fun i => rules_append (g := ⟨w, [], 0, 0, 0⟩) rfl i
    refine ⟨fun i hi => ?_, fun p r hr => ?_⟩
    · obtain rfl : i = 0 := by simpa using hi.lt
      exact absurd hi (not_isSynthetic_of_user rfl)
    · rw [hnil] at hr
      exact absurd hr List.not_mem_nil

lemma Reachable.regular (h : g.Reachable) : g.Regular := by
  obtain ⟨w, a, g₀, es, hc, he⟩ := h
  exact ((create_regular hc).attemptAll he).1

variable {es : List (Edit α)}

/-- **Synthetic symbols have one normal rule for good.** Every synthetic symbol has exactly one
rule, a terminal or a pair of non-terminals, and has it still after whatever is asked for later. No
synthetic symbol is a part of itself, of one of its parts, and so on. -/
theorem synthetic_frozen (hg : g.Reachable) (he : (g.attemptAll es).result = .ok g') :
    (∀ i, g.IsSynthetic i → ∃ r, g.rules i = [r] ∧
      ((∃ t, r = [t] ∧ g.isTerminal t = true) ∨
        ∃ l m, r = [l, m] ∧ g.isTerminal l = false ∧ g.isTerminal m = false) ∧
      g'.IsSynthetic i ∧ g'.rules i = [r]) ∧
      ∀ i, ¬TransGen g.PartOf i i := by
  have hreg := hg.regular
  obtain ⟨-, hret⟩ := hreg.attemptAll he
  refine ⟨fun i hi => ?_, hreg.synthetic.not_partOf_self hreg.consistent.wellFormed⟩
  obtain ⟨r, hr, hn⟩ := hreg.synthetic.normal i hi
  exact ⟨r, hr, isNormalRule_iff.1 hn, hret.isSynthetic hi, (hret.rules i hi).trans hr⟩

/-- The pair of the last symbol stays through a second normalisation, which makes more symbols. -/
theorem synthetic_frozen_alternating :
    alternatingResult.Reachable ∧ alternatingResult.IsSynthetic 4 ∧
      alternatingResult.rules 4 = [[3, 0]] ∧
      (∃ g, (alternatingResult.attemptAll
          [.addRule "S" ["a", "S", "a"], .normalize]).result = .ok g ∧
        g.symbols.length = 8 ∧ g.rules 4 = [[3, 0]]) ∧
      ¬TransGen alternatingResult.PartOf 4 4 := by
  obtain ⟨g, he, hlen⟩ : ∃ g, (alternatingResult.attemptAll
      [.addRule "S" ["a", "S", "a"], .normalize]).result = .ok g ∧ g.symbols.length = 8 :=
    ⟨_, rfl, rfl⟩
  have hsyn : alternatingResult.IsSynthetic 4 := ⟨1, rfl⟩
  obtain ⟨hfrozen, hcycle⟩ := synthetic_frozen alternatingResult_reachable he
  obtain ⟨r, hr, -, -, hr'⟩ := hfrozen 4 hsyn
  obtain rfl : [3, 0] = r := List.singleton_inj.1 hr
  exact ⟨alternatingResult_reachable, hsyn, hr, ⟨g, he, hlen, hr'⟩, hcycle 4⟩

end Chomsky.Grammar
