import Chomsky.Proofs.Grammar.Primitive

/-!
What a step of normalisation has done when it has gone through, in terms of the changes it is made
of.
-/

namespace Chomsky.Grammar

variable {α : Type} [DecidableEq α] {g g' : Grammar α} {p n : Nat} {r : List Nat}

/-- The new start symbol has the old one as its only rule. -/
lemma isolateStart_eq_ok : g.isolateStart.result = .ok g' ↔
    g.startOccurs = false ∧ g' = g ∨ g.startOccurs = true ∧ ∃ n g₁ g₂,
      g.pushStart = .ok (n, g₁) ∧ (g₁.insertRule n [g.start]).result = .ok g₂ ∧
        g' = { g₂ with start := n } := by
  unfold isolateStart
  cases hs : g.startOccurs with
  | false =>
    simp only [Bool.false_eq_true, if_false, true_and, false_and, or_false]
    exact ⟨fun h => (Except.ok.inj h).symm, fun h => h ▸ rfl⟩
  | true =>
    simp only [if_true, Bool.true_eq_false, false_and, true_and, false_or, Trail.bind_eq_ok,
      Trail.result_lift]
    constructor
    · rintro ⟨⟨n, g₁⟩, hp, g₂, hi, -, -, h⟩
      exact ⟨n, g₁, g₂, hp, hi, (Except.ok.inj h).symm⟩
    · rintro ⟨n, g₁, g₂, hp, hi, rfl⟩
      exact ⟨(n, g₁), hp, g₂, hi, (), rfl, rfl⟩

lemma pushStandIn_eq_ok {t : Nat} : (g.pushStandIn t).result = .ok (n, g') ↔
    ∃ g₁, g.pushSynthetic = .ok (n, g₁) ∧ (g₁.insertRule n [t]).result = .ok g' := by
  simp only [pushStandIn, Trail.bind_eq_ok, Trail.result_lift]
  constructor
  · rintro ⟨⟨n', g₁⟩, hp, g₂, hi, h⟩
    obtain ⟨rfl, rfl⟩ := Prod.mk.inj (Except.ok.inj h)
    exact ⟨g₁, hp, hi⟩
  · rintro ⟨g₁, hp, hi⟩
    exact ⟨(n, g₁), hp, g', hi, rfl⟩

lemma shieldMembers_nil_eq_ok : (g.shieldMembers []).result = .ok (r, g') ↔ r = [] ∧ g' = g := by
  constructor
  · intro h
    obtain ⟨rfl, rfl⟩ := Prod.mk.inj (Except.ok.inj h)
    exact ⟨rfl, rfl⟩
  · rintro ⟨rfl, rfl⟩
    rfl

/-- A terminal gives way to a symbol made for it, any other member stays. -/
lemma shieldMembers_cons_eq_ok {m : Nat} {ms : List Nat} :
    (g.shieldMembers (m :: ms)).result = .ok (r, g') ↔ ∃ m' g₁ ms',
      (g.isTerminal m = true ∧ (g.pushStandIn m).result = .ok (m', g₁) ∨
        g.isTerminal m = false ∧ m' = m ∧ g₁ = g) ∧
      (g₁.shieldMembers ms).result = .ok (ms', g') ∧ r = m' :: ms' := by
  conv_lhs => unfold shieldMembers
  cases ht : g.isTerminal m with
  | true =>
    simp only [if_true, Trail.bind_eq_ok, true_and, Bool.true_eq_false, false_and, or_false]
    constructor
    · rintro ⟨⟨m', g₁⟩, hm, ⟨ms', g₂⟩, hms, h⟩
      obtain ⟨rfl, rfl⟩ := Prod.mk.inj (Except.ok.inj h)
      exact ⟨m', g₁, ms', hm, hms, rfl⟩
    · rintro ⟨m', g₁, ms', hm, hms, rfl⟩
      exact ⟨(m', g₁), hm, (ms', g'), hms, rfl⟩
  | false =>
    simp only [Bool.false_eq_true, if_false, Trail.bind_eq_ok, false_and, true_and, false_or]
    constructor
    · rintro ⟨⟨m', g₁⟩, hm, ⟨ms', g₂⟩, hms, h⟩
      obtain ⟨rfl, rfl⟩ := Prod.mk.inj (Except.ok.inj hm)
      obtain ⟨rfl, rfl⟩ := Prod.mk.inj (Except.ok.inj h)
      exact ⟨m, g, ms', ⟨rfl, rfl⟩, hms, rfl⟩
    · rintro ⟨m', g₁, ms', ⟨rfl, rfl⟩, hms, rfl⟩
      exact ⟨(m', g₁), rfl, (ms', g'), hms, rfl⟩

lemma shieldRule_eq_ok : (shieldRule p g r).result = .ok g' ↔ ∃ r' g₁ g₂,
    (g.shieldMembers r).result = .ok (r', g₁) ∧ (g₁.insertRule p r').result = .ok g₂ ∧
      (g₂.removeRule p r).result = .ok g' := by
  simp only [shieldRule, Trail.bind_eq_ok]
  constructor
  · rintro ⟨⟨r', g₁⟩, hr, g₂, hi, hr'⟩
    exact ⟨r', g₁, g₂, hr, hi, hr'⟩
  · rintro ⟨r', g₁, g₂, hr, hi, hr'⟩
    exact ⟨(r', g₁), hr, g₂, hi, hr'⟩

/-- A chain for more than two members is a pair and a chain for the symbol made for the rest. -/
lemma insertChain_cons_eq_ok {m m' m'' : Nat} {ms : List Nat} :
    (g.insertChain p (m :: m' :: m'' :: ms)).result = .ok g' ↔ ∃ n g₁ g₂,
      g.pushSynthetic = .ok (n, g₁) ∧ (g₁.insertRule p [m, n]).result = .ok g₂ ∧
        (g₂.insertChain n (m' :: m'' :: ms)).result = .ok g' := by
  conv_lhs => unfold insertChain
  simp only [Trail.bind_eq_ok, Trail.result_lift]
  constructor
  · rintro ⟨⟨n, g₁⟩, hp, g₂, hi, h⟩
    exact ⟨n, g₁, g₂, hp, hi, h⟩
  · rintro ⟨n, g₁, g₂, hp, hi, h⟩
    exact ⟨(n, g₁), hp, g₂, hi, h⟩

lemma splitRule_eq_ok : (splitRule p g r).result = .ok g' ↔
    ∃ g₁, (g.insertChain p r).result = .ok g₁ ∧ (g₁.removeRule p r).result = .ok g' := by
  simp only [splitRule, Trail.bind_eq_ok]

omit [DecidableEq α] in
lemma replaceUnits_eq_ok {rs : List (List Nat)} : (g.replaceUnits p rs).result = .ok g' ↔
    ∃ g₁, (rs.foldlM (insertRule · p) g).result = .ok g₁ ∧
      (((g.rules p).filter g.isUnitRule).foldlM (removeRule · p) g₁).result = .ok g' := by
  simp only [replaceUnits, Trail.bind_eq_ok]

/-- A pass takes four steps; the check between them changes nothing. -/
lemma pass_eq_ok : g.pass.result = .ok g' ↔ ∃ g₁ g₂ g₃, g.isolateStart.result = .ok g₁ ∧
    g₁.shieldTerminals.result = .ok g₂ ∧ g₂.splitLongRules.result = .ok g₃ ∧
      g₃.checkNonempty = .ok () ∧ g₃.inlineUnits.result = .ok g' := by
  simp only [pass, Trail.bind_eq_ok, Trail.result_lift]
  constructor
  · rintro ⟨g₁, h₁, g₂, h₂, g₃, h₃, ⟨⟩, h₄, h₅⟩
    exact ⟨g₁, g₂, g₃, h₁, h₂, h₃, h₄, h₅⟩
  · rintro ⟨g₁, g₂, g₃, h₁, h₂, h₃, h₄, h₅⟩
    exact ⟨g₁, h₁, g₂, h₂, g₃, h₃, (), h₄, h₅⟩

/-- What every pass keeps, any number of passes keeps. -/
lemma passes_keeps (I : Grammar α → Prop)
    (hI : ∀ g g', I g → g.pass.result = .ok g' → I g') {n k k' : Nat} (hg : I g)
    (h : (g.passes n k).result = .ok (k', g')) : I g' := by
  induction n generalizing g k with
  | zero =>
    obtain ⟨-, rfl⟩ := Prod.mk.inj (Except.ok.inj h)
    exact hg
  | succ n ih =>
    unfold passes at h
    split at h
    · obtain ⟨-, rfl⟩ := Prod.mk.inj (Except.ok.inj h)
      exact hg
    · rw [Trail.record_bind_eq_ok, Trail.bind_eq_ok] at h
      obtain ⟨g₁, hp, h⟩ := h
      exact ih (hI g g₁ hg hp) h

lemma normalize_eq_ok {c : NormalGrammar α} : g.normalize.result = .ok (g', c) ↔
    (∃ k, (g.passes g.passBound 0).result = .ok (k, g')) ∧ g'.snapshot = .ok c := by
  simp only [normalize, Trail.bind_eq_ok, Trail.result_lift]
  constructor
  · rintro ⟨⟨k, g₁⟩, hp, -, -, c', hc, h⟩
    obtain ⟨rfl, rfl⟩ := Prod.mk.inj (Except.ok.inj h)
    exact ⟨⟨k, hp⟩, hc⟩
  · rintro ⟨⟨k, hp⟩, hc⟩
    exact ⟨(k, g'), hp, (), rfl, c, hc, rfl⟩

/-- What every pass keeps, normalisation keeps. -/
lemma normalize_keeps (I : Grammar α → Prop)
    (hI : ∀ g g', I g → g.pass.result = .ok g' → I g') {c : NormalGrammar α} (hg : I g)
    (h : g.normalize.result = .ok (g', c)) : I g' := by
  obtain ⟨⟨k, hp⟩, -⟩ := normalize_eq_ok.1 h
  exact passes_keeps I hI hg hp

end Chomsky.Grammar
