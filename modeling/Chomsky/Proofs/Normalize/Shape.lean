import Chomsky.Proofs.Normalize.LongRules
import Chomsky.Proofs.Normalize.Rewriting
import Chomsky.Proofs.Normalize.Start
import Chomsky.Proofs.Normalize.Terminals
import Chomsky.Proofs.Normalize.UnitRules

/-!
The shape of the rules after each step. Shielding leaves no terminal beside other members, splitting
leaves no long rule and brings no terminal back, and inlining takes over only rules that are there.
So one pass leaves normal rules alone, and a start symbol that occurs in none of them: it may put a
new start symbol on top, folds the rules, and inlines unit rules.
-/

namespace Chomsky.Grammar

open Relation

variable {α : Type} {g g' : Grammar α} {p i : Nat} {r s : List Nat}

/-! ### Shielding -/

lemma needsShield_eq_true : g.needsShield r = true ↔
    1 < r.length ∧ ∃ t ∈ r, g.isTerminal t = true := by
  simp [needsShield]

/-- A rule without terminals needs no shield. -/
lemma needsShield_of_nonterminals (h : ∀ m ∈ r, g.isTerminal m = false) :
    g.needsShield r = false := by
  by_contra hn
  obtain ⟨-, t, ht, htt⟩ := needsShield_eq_true.1 (by simpa using hn)
  simp [h t ht] at htt

lemma nonterminal_of_needsShield (hlong : 1 < r.length) (h : g.needsShield r = false) :
    ∀ m ∈ r, g.isTerminal m = false := fun m hm => by
  by_contra ht
  rw [needsShield_eq_true.2 ⟨hlong, m, hm, by simpa using ht⟩] at h
  cases h

lemma needsShield_congr (h : ∀ i, g'.isTerminal i = g.isTerminal i) :
    g'.needsShield = g.needsShield := by
  funext r
  unfold needsShield
  rw [funext h]

variable [DecidableEq α]

lemma mem_rules_shieldRule (h : (shieldRule p g r).result = .ok g') (hs : s ∈ g'.rules i) :
    s ∈ g.rules i ∨ g.needsShield s = false := by
  obtain ⟨r', g₁, g₂, hm, hi, hr⟩ := shieldRule_eq_ok.1 h
  have hsh := shieldMembers_spec hm
  obtain ⟨hp, -, -, -, rfl⟩ := insertRule_eq_ok.1 hi
  obtain ⟨-, -, rfl⟩ := removeRule_eq_ok.1 hr
  rcases (mem_rules_withRule hp).1 (mem_rules_of_withoutRule hs) with hs | ⟨-, rfl⟩
  · rcases Nat.lt_or_ge i g.symbols.length with hlt | hge
    · exact .inl (hsh.rules i hlt ▸ hs)
    · obtain ⟨t, -, ht⟩ := hsh.fresh i hge (lt_of_mem_rules hs)
      rw [ht, List.mem_singleton] at hs
      exact .inr (by simp [hs, needsShield])
  · refine .inr (needsShield_of_nonterminals fun m hm => ?_)
    obtain ⟨-, ht⟩ | ⟨hge, -⟩ := hsh.member_cases hm
    · exact ht
    · exact isTerminal_of_le hge

theorem shieldRule_rewrites : Rewrites (needsShield (α := α)) shieldRule where
  pick_eq h := needsShield_congr h.isTerminal
  reshapes := shieldRule_reshapes
  gone hw h := by
    obtain ⟨r', g₁, g₂, hm, hi, hr⟩ := shieldRule_eq_ok.1 h
    have hw₂ := hw.changes (Reshapes.changes ((shieldMembers_reshapes hm).tail (.insert hi)))
    exact not_mem_of_removeRule (hw₂.nodup_rules _) hr
  keeps h hs hne := by
    obtain ⟨r', g₁, g₂, hm, hi, hr⟩ := shieldRule_eq_ok.1 h
    have hs₁ := (shieldMembers_spec hm).rules _ (lt_of_mem_rules hs) ▸ hs
    exact mem_rules_of_removeRule hr (mem_rules_of_insertRule hi hs₁) hne
  adds _ := mem_rules_shieldRule

/-- No terminal is left beside other members. -/
lemma needsShield_shieldTerminals (hw : g.WellFormed) (h : g.shieldTerminals.result = .ok g')
    (hs : s ∈ g'.rules i) : g'.needsShield s = false :=
  shieldRule_rewrites.pick_eq_false hw h hs

/-! ### Splitting -/

lemma mem_rules_of_insertChain (h : (g.insertChain p r).result = .ok g') (hs : s ∈ g.rules i) :
    s ∈ g'.rules i := by
  fun_induction insertChain g p r with
  | case1 g p m m' m'' ms ih =>
    obtain ⟨n, g₁, g₂, hp, hi, h⟩ := insertChain_cons_eq_ok.1 h
    have hs₁ : s ∈ g₁.rules i := by rwa [(makes_of_pushSynthetic hp).1.rules]
    exact ih n g₂ h (mem_rules_of_insertRule hi hs₁)
  | case2 g p r => exact mem_rules_of_insertRule h hs

/-- The pairs of a chain have no terminals if the members have none. -/
lemma nonterminal_insertChain (hr : ∀ m ∈ r, g.isTerminal m = false)
    (h : (g.insertChain p r).result = .ok g') (hs : s ∈ g'.rules i) :
    s ∈ g.rules i ∨ ∀ m ∈ s, g.isTerminal m = false := by
  fun_induction insertChain g p r with
  | case1 g p m m' m'' ms ih =>
    obtain ⟨n, g₁, g₂, hp, hi, h⟩ := insertChain_cons_eq_ok.1 h
    obtain ⟨hm, -⟩ := makes_of_pushSynthetic hp
    obtain ⟨hlt, hn, -, -, rfl⟩ := insertRule_eq_ok.1 hi
    have hterm : ∀ i, (g₁.withRule p [m, n]).isTerminal i = g.isTerminal i :=
      fun i => by rw [isTerminal_withRule, hm.isTerminal]
    rcases ih n _ (fun x hx => by rw [hterm]; exact hr x (List.mem_cons_of_mem m hx)) h with hs | hs
    · rcases (mem_rules_withRule hlt).1 hs with hs | ⟨-, rfl⟩
      · exact .inl (by rwa [hm.rules] at hs)
      · refine .inr fun x hx => ?_
        rcases (by simpa using hx : x = m ∨ x = n) with rfl | rfl
        · exact hr x List.mem_cons_self
        · exact isTerminal_of_le hm.index.ge
    · exact .inr fun x hx => (hterm x).symm.trans (hs x hx)
  | case2 g p r =>
    obtain ⟨hlt, -, -, -, rfl⟩ := insertRule_eq_ok.1 h
    rcases (mem_rules_withRule hlt).1 hs with hs | ⟨-, rfl⟩
    · exact .inl hs
    · exact .inr hr

theorem splitRule_rewrites :
    Rewrites (fun (_ : Grammar α) (r : List Nat) => decide (2 < r.length)) splitRule where
  pick_eq _ := rfl
  reshapes := splitRule_reshapes
  gone hw h := by
    obtain ⟨g₁, hc, hr⟩ := splitRule_eq_ok.1 h
    exact not_mem_of_removeRule ((hw.changes (insertChain_reshapes hc).changes).nodup_rules _) hr
  keeps h hs hne := by
    obtain ⟨g₁, hc, hr⟩ := splitRule_eq_ok.1 h
    exact mem_rules_of_removeRule hr (mem_rules_of_insertChain hc hs) hne
  adds hlong h hs := by
    obtain ⟨g₁, hc, hr⟩ := splitRule_eq_ok.1 h
    obtain ⟨-, -, rfl⟩ := removeRule_eq_ok.1 hr
    have hlong := of_decide_eq_true hlong
    exact (mem_rules_insertChain (by omega) hc (mem_rules_of_withoutRule hs)).imp_right
      fun h2 => by simp [h2]

/-- No rule with more than two members is left. -/
lemma length_splitLongRules (hw : g.WellFormed) (h : g.splitLongRules.result = .ok g')
    (hs : s ∈ g'.rules i) : s.length ≤ 2 := by
  simpa using splitRule_rewrites.pick_eq_false hw h hs

/-- Splitting one rule without terminals brings no terminal back. -/
lemma needsShield_splitRule (hg : ∀ i, ∀ s ∈ g.rules i, g.needsShield s = false)
    (hlong : 2 < r.length) (h : (splitRule p g r).result = .ok g') :
    ∀ i, ∀ s ∈ g'.rules i, g'.needsShield s = false := by
  rw [needsShield_congr (splitRule_reshapes h).enlarges.isTerminal]
  obtain ⟨g₁, hc, hr⟩ := splitRule_eq_ok.1 h
  obtain ⟨hr₁, -, rfl⟩ := removeRule_eq_ok.1 hr
  have hrp : r ∈ g.rules p := (mem_rules_insertChain (by omega) hc hr₁).resolve_right (by omega)
  have hterm := nonterminal_of_needsShield (by omega) (hg p r hrp)
  intro i s hs
  rcases nonterminal_insertChain hterm hc (mem_rules_of_withoutRule hs) with hs | hs
  · exact hg i s hs
  · exact needsShield_of_nonterminals hs

lemma needsShield_splitLongRules (hg : ∀ i, ∀ s ∈ g.rules i, g.needsShield s = false)
    (h : g.splitLongRules.result = .ok g') : ∀ i, ∀ s ∈ g'.rules i, g'.needsShield s = false :=
  Trail.foldlM_keeps (fun c : Grammar α => ∀ i, ∀ s ∈ c.rules i, c.needsShield s = false)
    (fun c p _ c' hc h => Trail.foldlM_keeps _ (fun d r hr d' hd h =>
      needsShield_splitRule hd (by simpa using (List.mem_filter.1 hr).2) h) hc h) hg h

/-! ### Inlining -/

omit [DecidableEq α] in
/-- A short rule is normal if it has a terminal as its only member or none. -/
lemma isNormalRule_of_shape (hne : r ≠ []) (hlen : r.length ≤ 2) (hshield : g.needsShield r = false)
    (hunit : g.isUnitRule r = false) : g.isNormalRule r = true := by
  match r with
  | [] => exact absurd rfl hne
  | [t] => simpa [isUnitRule, isNormalRule] using hunit
  | [l, m] => simpa [needsShield, isNormalRule] using hshield
  | _ :: _ :: _ :: _ => simp at hlen

/-! ### A whole pass -/

/-- A pass from `g` to `g'`, by way of the grammar `g₁` with an isolated start and the grammar `g₂`
with short rules, in which no terminal stands beside other members. -/
structure PassThrough (g g₁ g₂ g' : Grammar α) : Prop where
  isolate : g.isolateStart.result = .ok g₁
  isolated : g₁.WellFormed
  folds : g₁.Folds g₂
  enlarges : g₁.Enlarges g₂
  folded : g₂.WellFormed
  length_le : ∀ p, ∀ r ∈ g₂.rules p, r.length ≤ 2
  shielded : ∀ p, ∀ r ∈ g₂.rules p, g₂.needsShield r = false
  inline : g₂.inlineUnits.result = .ok g'

/-- **The shape of a pass.** -/
theorem pass_spec (hw : g.WellFormed) (h : g.pass.result = .ok g') :
    ∃ g₁ g₂, g.PassThrough g₁ g₂ g' := by
  obtain ⟨g₁, g₂, g₃, h₁, h₂, h₃, -, h₄⟩ := pass_eq_ok.1 h
  have hw₁ := hw.changes (isolateStart_changes h₁)
  have hw₂ := hw₁.changes (shieldTerminals_reshapes h₂).changes
  have hw₃ := hw₂.changes (splitLongRules_reshapes h₃).changes
  refine ⟨g₁, g₃, h₁, hw₁, ?_, ?_, hw₃, fun p r => length_splitLongRules hw₂ h₃, ?_, h₄⟩
  · exact (shieldTerminals_folds hw₁ h₂).trans (splitLongRules_folds hw₂ h₃)
  · exact (shieldTerminals_reshapes h₂).enlarges.trans (splitLongRules_reshapes h₃).enlarges
  · exact needsShield_splitLongRules (fun _ _ => needsShield_shieldTerminals hw₁ h₂) h₃

/-- What every pass keeps of a well-formed grammar, normalisation keeps. -/
lemma normalize_keeps_of_wellFormed (I : Grammar α → Prop)
    (hI : ∀ g g', g.WellFormed → I g → g.pass.result = .ok g' → I g') {c : NormalGrammar α}
    (hw : g.WellFormed) (hg : I g) (h : g.normalize.result = .ok (g', c)) : I g' := by
  have hkeep := normalize_keeps (fun g => g.WellFormed ∧ I g)
    (fun g₁ g₂ h₁ hp => ⟨h₁.1.changes (pass_changes hp), hI g₁ g₂ h₁.1 h₁.2 hp⟩) ⟨hw, hg⟩ h
  exact hkeep.2

end Chomsky.Grammar
