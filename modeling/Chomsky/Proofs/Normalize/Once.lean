import Chomsky.Proofs.Normalize.Shape
import Chomsky.Proofs.Normalize.Progress

/-!
One pass is enough: after it all rules are normal and the start symbol occurs in none of them. So a
second normalisation finds nothing to do.
-/

namespace Chomsky.Grammar

variable {α : Type} {g g' : Grammar α} {c : NormalGrammar α} {e : Fault}

/-- Every rule is a terminal or a pair of non-terminals, and the start symbol occurs in none. -/
structure InNormalForm (g : Grammar α) : Prop where
  rules : ∀ p, ∀ r ∈ g.rules p, (∃ t, r = [t] ∧ g.isTerminal t = true) ∨
    ∃ l m, r = [l, m] ∧ g.isTerminal l = false ∧ g.isTerminal m = false
  start : ¬g.Occurs g.start

lemma isSettled_iff (hw : g.WellFormed) : g.isSettled = true ↔ g.InNormalForm := by
  have hstart : (!g.startOccurs) = true ↔ ¬g.Occurs g.start := by
    rw [Bool.not_eq_true', ← Bool.not_eq_true, hw.startOccurs_iff]
  rw [isSettled, Bool.and_eq_true, hstart, isNormal_iff]
  constructor
  · rintro ⟨hrules, hs⟩
    exact ⟨fun p r hr => isNormalRule_iff.1 (hrules p r hr), hs⟩
  · rintro ⟨hrules, hs⟩
    exact ⟨fun p r hr => isNormalRule_iff.2 (hrules p r hr), hs⟩

variable [DecidableEq α]

/-- **A pass settles the grammar.** -/
theorem pass_inNormalForm (hw : g.WellFormed) (h : g.pass.result = .ok g') : g'.InNormalForm := by
  obtain ⟨g₁, g₂, hp⟩ := pass_spec hw h
  have hw' := hw.changes (pass_changes h)
  have henl := (inlineUnits_reshapes hp.inline).enlarges
  refine ⟨fun p r hr => isNormalRule_iff.1 ?_, fun hocc => ?_⟩
  · obtain ⟨q, -, hr₂, -⟩ := (mem_rules_inlineUnits hp.folded hp.inline).1 hr
    refine isNormalRule_of_shape (hw'.rule_ne_nil p r hr) (hp.length_le q r hr₂) ?_
      (isUnitRule_inlineUnits hp.folded hp.inline hr)
    rw [needsShield_congr henl.isTerminal, hp.shielded q r hr₂]
  · have hocc₂ : g₂.Occurs g₁.start := by
      rw [henl.start, hp.folds.start] at hocc
      exact inlineUnits_occurs hp.folded hp.inline hocc
    have hocc₁ := hp.folds.occurs hp.isolated.start_lt hp.isolated.start_nonterminal hocc₂
    exact isolateStart_not_occurs hw hp.isolate hocc₁

lemma passes_of_settled (h : g.isSettled = true) (n k : Nat) : g.passes n k = pure (k, g) := by
  cases n with
  | zero => rfl
  | succ n => rw [passes, if_pos h]

/-- **One pass is enough**, whatever the bound on passes is. -/
theorem passes_eq (hw : g.WellFormed) (n k : Nat) : g.passes (n + 1) k =
    (if g.isSettled then pure (k, g)
    else do
      Trail.record (.pass (k + 1) g.symbols.length g.ruleCount)
      let g' ← g.pass
      pure (k + 1, g')) := by
  rw [passes]
  split
  · rfl
  · refine congrArg _ (funext fun _ => Trail.bind_congr fun g' h => ?_)
    have hw' := hw.changes (pass_changes h)
    exact passes_of_settled ((isSettled_iff hw').2 (pass_inNormalForm hw h)) n (k + 1)

/-- All passes together are none or one. -/
lemma passes_eq_ok (hw : g.WellFormed) {n k j : Nat} :
    (g.passes (n + 1) k).result = .ok (j, g') ↔ g.InNormalForm ∧ j = k ∧ g' = g ∨
      ¬g.InNormalForm ∧ j = k + 1 ∧ g.pass.result = .ok g' := by
  rw [passes_eq hw, ← isSettled_iff hw]
  split
  · next hs =>
    simp only [hs, true_and, not_true, false_and, or_false]
    constructor
    · intro h
      obtain ⟨rfl, rfl⟩ := Prod.mk.inj (Except.ok.inj h)
      exact ⟨rfl, rfl⟩
    · rintro ⟨rfl, rfl⟩
      rfl
  · next hs =>
    simp only [hs, false_and, false_or, Bool.false_eq_true, not_false_eq_true, true_and]
    rw [Trail.record_bind_eq_ok, Trail.bind_eq_ok]
    constructor
    · rintro ⟨g₁, hp, h⟩
      obtain ⟨rfl, rfl⟩ := Prod.mk.inj (Except.ok.inj h)
      exact ⟨rfl, hp⟩
    · rintro ⟨rfl, hp⟩
      exact ⟨g', hp, rfl⟩

/-- What normalisation leaves: the grammar itself if it is normal, or else what one pass makes. -/
lemma normalize_cases (hw : g.WellFormed) (h : g.normalize.result = .ok (g', c)) :
    (g.InNormalForm ∧ g' = g ∨ ¬g.InNormalForm ∧ g.pass.result = .ok g') ∧
      g'.snapshot = .ok c := by
  obtain ⟨⟨k, hp⟩, hs⟩ := normalize_eq_ok.1 h
  refine ⟨?_, hs⟩
  obtain ⟨hn, -, hg'⟩ | ⟨hn, -, hg'⟩ := (passes_eq_ok hw).1 hp
  · exact .inl ⟨hn, hg'⟩
  · exact .inr ⟨hn, hg'⟩

lemma normalize_inNormalForm (hw : g.WellFormed) (h : g.normalize.result = .ok (g', c)) :
    g'.InNormalForm := by
  obtain ⟨⟨hn, rfl⟩ | ⟨-, hp⟩, -⟩ := normalize_cases hw h
  · exact hn
  · exact pass_inNormalForm hw hp

/-- Nothing is done to a normal grammar. -/
lemma normalize_of_inNormalForm (hw : g.WellFormed) (hn : g.InNormalForm)
    (hs : g.snapshot = .ok c) :
    g.normalize = ⟨[.normalized 0 g.symbols.length g.ruleCount], .ok (g, c)⟩ := by
  rw [normalize, passes_of_settled ((isSettled_iff hw).2 hn), pure_bind]
  simp only [hs]
  rfl

/-- Normalisation breaks off in its pass or, for want of automatic tags, in the snapshot. -/
lemma normalize_eq_error (hw : g.WellFormed) (h : g.normalize.result = .error e) :
    ¬g.InNormalForm ∧ g.pass.result = .error e ∨ g.width = .w64 ∧ e = .overflow := by
  obtain h | ⟨⟨k, g₁⟩, hp, h⟩ := Trail.bind_eq_error.1 h
  · rw [passBound, passes_eq hw] at h
    split at h
    · cases h
    · next hn =>
      obtain h | ⟨-, -, h⟩ := Trail.bind_eq_error.1 h
      · cases h
      · obtain h | ⟨g₁, -, h⟩ := Trail.bind_eq_error.1 h
        · exact .inl ⟨fun hg => hn ((isSettled_iff hw).2 hg), h⟩
        · cases h
  · have hsnap : g₁.snapshot = .error e := by
      obtain h | ⟨-, -, h⟩ := Trail.bind_eq_error.1 h
      · cases h
      · obtain h | ⟨c, -, h⟩ := Trail.bind_eq_error.1 h
        · exact h
        · cases h
    have hnormal : ∀ {g : Grammar α}, g.WellFormed → g.InNormalForm → g.isNormal = true :=
      fun hw hn => (Bool.and_eq_true_iff.1 ((isSettled_iff hw).2 hn)).1
    obtain ⟨hn, -, rfl⟩ | ⟨-, -, hp⟩ := (passes_eq_ok hw).1 hp
    · exact .inr (snapshot_eq_error hw (hnormal hw hn) hsnap)
    · have hc := pass_changes hp
      have hw₁ := hw.changes hc
      rw [← hc.width]
      exact .inr (snapshot_eq_error hw₁ (hnormal hw₁ (pass_inNormalForm hw hp)) hsnap)

lemma normalize_runsOut (hg : g.Consistent) (h : g.normalize.result = .error e) :
    g.width.RunsOut e := by
  obtain ⟨-, hp⟩ | ⟨hw, rfl⟩ := normalize_eq_error hg.wellFormed h
  · exact pass_runsOut hg hp
  · exact .inr ⟨hw, .inr rfl⟩

/-- **Normalisation makes at most one pass**, and none if and only if the grammar is normal already.
It breaks off only if there are too many symbols, and otherwise leaves a normal grammar, of which a
second normalisation changes nothing. -/
theorem normalize_once (hg : g.Reachable) :
    (g.isSettled = true ↔ g.InNormalForm) ∧
      (∀ n k, g.passes (n + 1) k =
        (if g.isSettled then pure (k, g)
        else do
          Trail.record (.pass (k + 1) g.symbols.length g.ruleCount)
          let g' ← g.pass
          pure (k + 1, g'))) ∧
      (∀ e, g.normalize.result = .error e → g.width.RunsOut e) ∧
      ∀ g' c, g.normalize.result = .ok (g', c) → g'.InNormalForm ∧
        g'.normalize = ⟨[.normalized 0 g'.symbols.length g'.ruleCount], .ok (g', c)⟩ := by
  have hw := hg.wellFormed
  refine ⟨isSettled_iff hw, passes_eq hw, fun _ => normalize_runsOut hg.consistent,
    fun g' c h => ?_⟩
  have hw' := hw.changes (normalize_changes h)
  have hn := normalize_inNormalForm hw h
  exact ⟨hn, normalize_of_inNormalForm hw' hn (normalize_cases hw h).2⟩

theorem normalize_once_alternating : alternating.Reachable ∧ ¬alternating.InNormalForm ∧
    alternating.normalize.result = .ok (alternatingResult, alternatingSnapshot) ∧
      alternatingResult.InNormalForm ∧ alternatingResult.normalize =
        ⟨[.normalized 0 5 6], .ok (alternatingResult, alternatingSnapshot)⟩ := by
  obtain ⟨hs, -, -, hn⟩ := normalize_once alternating_reachable
  obtain ⟨hnormal, hagain⟩ := hn _ _ alternating_normalize
  exact ⟨alternating_reachable, fun h => absurd (hs.2 h) (by decide), alternating_normalize,
    hnormal, hagain⟩

end Chomsky.Grammar
