import Mathlib.Data.List.Nodup
import Chomsky.Proofs.Normalize.Steps
import Chomsky.Proofs.Normalize.UnitClosure

/-!
What inlining unit rules leaves of the rules: every symbol has its proper rules and after them, in
the order in which the walk finds them, those that it takes over. No unit rule is left.
-/

namespace Chomsky

namespace OrderedSet

variable {β : Type} [DecidableEq β] {xs rs : List β}

lemma mem_foldl_insert {y : β} : y ∈ rs.foldl insert xs ↔ y ∈ xs ∨ y ∈ rs := by
  induction rs generalizing xs with
  | nil => simp
  | cons r rs ih => rw [List.foldl_cons, ih, mem_insert, List.mem_cons, or_assoc]

lemma filter_insert_of_pos {P : β → Bool} {x : β} (hx : P x = true) :
    (insert xs x).filter P = insert (xs.filter P) x := by
  unfold insert
  by_cases hmem : x ∈ xs
  · rw [if_pos hmem, if_pos (List.mem_filter.2 ⟨hmem, hx⟩)]
  · rw [if_neg hmem, if_neg fun h => hmem (List.mem_filter.1 h).1, List.filter_append,
      List.filter_cons_of_pos hx, List.filter_nil]

/-- What stays in any case can be put in before the rest goes or after it. -/
lemma filter_foldl_insert {P : β → Bool} (hrs : ∀ r ∈ rs, P r = true) :
    (rs.foldl insert xs).filter P = rs.foldl insert (xs.filter P) := by
  induction rs generalizing xs with
  | nil => rfl
  | cons r rs ih =>
    rw [List.foldl_cons, List.foldl_cons, ih fun r' hr' => hrs r' (List.mem_cons_of_mem r hr'),
      filter_insert_of_pos (hrs r List.mem_cons_self)]

lemma nodup_foldl_insert (h : xs.Nodup) : (rs.foldl insert xs).Nodup := by
  induction rs generalizing xs with
  | nil => exact h
  | cons r rs ih => exact ih (nodup_insert h r)

end OrderedSet

namespace Grammar

variable {α : Type} {g g' : Grammar α} {p : Nat} {rs : List (List Nat)}

/-- The grammars differ in their rules alone. -/
structure SameSymbols (g g' : Grammar α) : Prop where
  length : g'.symbols.length = g.symbols.length
  start : g'.start = g.start
  isTerminal : ∀ i, g'.isTerminal i = g.isTerminal i

lemma SameSymbols.refl (g : Grammar α) : g.SameSymbols g := ⟨rfl, rfl, fun _ => rfl⟩

lemma SameSymbols.trans {g'' : Grammar α} (h : g.SameSymbols g') (h' : g'.SameSymbols g'') :
    g.SameSymbols g'' :=
  ⟨h'.length.trans h.length, h'.start.trans h.start,
    fun i => (h'.isTerminal i).trans (h.isTerminal i)⟩

lemma SameSymbols.isUnitRule (h : g.SameSymbols g') (r : List Nat) :
    g'.isUnitRule r = g.isUnitRule r := by
  unfold Grammar.isUnitRule
  split
  · rw [h.isTerminal]
  · rfl

/-! ### The rules of one symbol -/

/-- A loop whose steps change the rules of one symbol alone. -/
lemma rules_foldlM {step : Grammar α → List Nat → Trail Record (Grammar α)}
    {f : List (List Nat) → List Nat → List (List Nat)}
    (hstep : ∀ c r c', (step c r).result = .ok c' → c.SameSymbols c' ∧ ∀ i, c'.rules i =
      if i = p then f (c.rules p) r else c.rules i)
    (h : (rs.foldlM step g).result = .ok g') :
    g.SameSymbols g' ∧ ∀ i, g'.rules i = if i = p then rs.foldl f (g.rules p) else g.rules i := by
  induction rs generalizing g with
  | nil =>
    obtain rfl := Except.ok.inj h
    refine ⟨.refl g, fun i => ?_⟩
    split
    · next hi => rw [hi]; rfl
    · rfl
  | cons r rs ih =>
    rw [List.foldlM_cons, Trail.bind_eq_ok] at h
    obtain ⟨g₁, hs, h⟩ := h
    obtain ⟨hsame₁, hrules₁⟩ := hstep g r g₁ hs
    obtain ⟨hsame, hrules⟩ := ih h
    refine ⟨hsame₁.trans hsame, fun i => ?_⟩
    rw [hrules i, hrules₁, hrules₁, if_pos rfl, List.foldl_cons]
    split <;> rfl

lemma insertRules_spec (h : (rs.foldlM (insertRule · p) g).result = .ok g') :
    g.SameSymbols g' ∧ ∀ i, g'.rules i =
      if i = p then rs.foldl OrderedSet.insert (g.rules p) else g.rules i := by
  refine rules_foldlM (fun c r c' hi => ?_) h
  obtain ⟨hp, -, -, -, rfl⟩ := insertRule_eq_ok.1 hi
  exact ⟨⟨length_withRule, rfl, fun _ => isTerminal_withRule⟩, rules_withRule hp⟩

lemma removeRules_spec (h : (rs.foldlM (removeRule · p) g).result = .ok g') :
    g.SameSymbols g' ∧ ∀ i, g'.rules i =
      if i = p then rs.foldl List.erase (g.rules p) else g.rules i := by
  refine rules_foldlM (fun c r c' hr => ?_) h
  obtain ⟨-, -, rfl⟩ := removeRule_eq_ok.1 hr
  exact ⟨⟨length_withoutRule, rfl, fun _ => isTerminal_withoutRule⟩, fun _ => rules_withoutRule⟩

/-- Proper rules come in and all unit rules go. -/
lemma replaceUnits_spec (hnodup : (g.rules p).Nodup)
    (hrs : ∀ r ∈ rs, g.isUnitRule r = false) (h : (g.replaceUnits p rs).result = .ok g') :
    g.SameSymbols g' ∧ ∀ i, g'.rules i =
      if i = p then rs.foldl OrderedSet.insert (g.properRules p) else g.rules i := by
  obtain ⟨g₁, hi, hr⟩ := replaceUnits_eq_ok.1 h
  obtain ⟨hsame₁, hrules₁⟩ := insertRules_spec hi
  obtain ⟨hsame₂, hrules₂⟩ := removeRules_spec hr
  refine ⟨hsame₁.trans hsame₂, fun i => ?_⟩
  rw [hrules₂]
  split
  · have hnodup₁ : (g₁.rules p).Nodup := by
      rw [hrules₁, if_pos rfl]
      exact OrderedSet.nodup_foldl_insert hnodup
    rw [← List.diff_eq_foldl, List.Nodup.sdiff_eq_filter hnodup₁, hrules₁, if_pos rfl, properRules,
      ← OrderedSet.filter_foldl_insert fun r hr => by simpa using hrs r hr]
    refine List.filter_congr fun r hr => ?_
    have hmem := OrderedSet.mem_foldl_insert.1 hr
    cases hu : g.isUnitRule r with
    | false => simp [hu]
    | true =>
      have hr : r ∈ g.rules p := hmem.resolve_right fun hr => by simp [hrs r hr] at hu
      simp [hr, hu]
  · next hip => rw [hrules₁, if_neg hip]

/-! ### The rules of all symbols -/

lemma mem_properRules {r : List Nat} :
    r ∈ g.properRules p ↔ r ∈ g.rules p ∧ g.isUnitRule r = false := by
  simp [properRules]

/-- What a symbol has once its unit rules are followed. -/
def settledRules (g : Grammar α) (p : Nat) : List (List Nat) :=
  (g.inheritedRules p).foldl OrderedSet.insert (g.properRules p)

lemma mem_settledRules (hw : g.WellFormed) {r : List Nat} :
    r ∈ g.settledRules p ↔ g.ProperRule p r := by
  rw [settledRules, OrderedSet.mem_foldl_insert, mem_inheritedRules hw]

/-- Nothing is to be done for a symbol without unit rules. -/
lemma settledRules_of_unitTargets_eq_nil (hw : g.WellFormed) (h : g.unitTargets p = []) :
    g.settledRules p = g.rules p := by
  rw [settledRules, inheritedRules, h]
  refine List.filter_eq_self.2 fun r hr => ?_
  by_contra hu
  obtain ⟨m, rfl, hm⟩ := isUnitRule_iff.1 (by simpa using hu)
  have hmem : m ∈ g.unitTargets p := (mem_unitTargets hw).2 (.single ⟨hr, hm⟩)
  rw [h] at hmem
  exact List.not_mem_nil hmem

lemma replaceAllUnits_spec (hw : g.WellFormed) {c : Grammar α} (hsame : g.SameSymbols c)
    {heirs : List Nat} (hnodup : heirs.Nodup) (hc : ∀ i ∈ heirs, c.rules i = g.rules i)
    (h : ((heirs.map fun i => (i, g.inheritedRules i)).foldlM
      (fun (c : Grammar α) x => c.replaceUnits x.1 x.2) c).result = .ok g') :
    g.SameSymbols g' ∧ ∀ i, g'.rules i =
      if i ∈ heirs then g.settledRules i else c.rules i := by
  induction heirs generalizing c with
  | nil =>
    obtain rfl := Except.ok.inj h
    exact ⟨hsame, fun i => rfl⟩
  | cons p heirs ih =>
    rw [List.map_cons, List.foldlM_cons, Trail.bind_eq_ok] at h
    obtain ⟨c', hr, h⟩ := h
    obtain ⟨hp, hheirs⟩ := List.nodup_cons.1 hnodup
    have hcp := hc p List.mem_cons_self
    have hr : (c.replaceUnits p (g.inheritedRules p)).result = .ok c' := hr
    obtain ⟨hsame', hrules⟩ := replaceUnits_spec (by rw [hcp]; exact hw.nodup_rules p)
      (fun r hr => by
        obtain ⟨q, -, hr⟩ := List.mem_flatMap.1 hr
        rw [hsame.isUnitRule]
        exact (mem_properRules.1 hr).2) hr
    have hproper : c.properRules p = g.properRules p := by
      unfold properRules
      rw [hcp]
      exact List.filter_congr fun r _ => by rw [hsame.isUnitRule]
    obtain ⟨hsame'', hrules'⟩ := ih (hsame.trans hsame') hheirs (fun i hi => by
      rw [hrules, if_neg (ne_of_mem_of_not_mem hi hp)]
      exact hc i (List.mem_cons_of_mem p hi)) h
    refine ⟨hsame'', fun i => ?_⟩
    rw [hrules', hrules]
    by_cases hip : i = p
    · subst hip
      rw [if_neg hp, if_pos rfl, if_pos List.mem_cons_self, hproper]
      rfl
    · simp [hip]

/-- **Inlining**: every symbol ends with its settled rules, and nothing else has changed. -/
theorem inlineUnits_spec [DecidableEq α] (hw : g.WellFormed)
    (h : g.inlineUnits.result = .ok g') :
    g.SameSymbols g' ∧ ∀ i, g'.rules i = g.settledRules i := by
  obtain ⟨hsame, hrules⟩ := replaceAllUnits_spec hw (.refl g)
    (by rw [hw.indices]; exact List.nodup_range.filter _) (fun _ _ => rfl) h
  refine ⟨hsame, fun i => ?_⟩
  rw [hrules]
  split
  · rfl
  · next hi =>
    refine (settledRules_of_unitTargets_eq_nil hw ?_).symm
    rw [hw.indices, List.mem_filter, List.mem_range] at hi
    by_contra hne
    obtain ⟨q, hq⟩ := exists_unitStep hw hne
    exact hi ⟨lt_of_mem_rules hq.1, by simpa using hne⟩

lemma mem_rules_inlineUnits [DecidableEq α] (hw : g.WellFormed)
    (h : g.inlineUnits.result = .ok g') {r : List Nat} :
    r ∈ g'.rules p ↔ g.ProperRule p r := by
  rw [(inlineUnits_spec hw h).2, mem_settledRules hw]

/-- No unit rule is left. -/
theorem isUnitRule_inlineUnits [DecidableEq α] (hw : g.WellFormed)
    (h : g.inlineUnits.result = .ok g') {r : List Nat} (hr : r ∈ g'.rules p) :
    g'.isUnitRule r = false := by
  obtain ⟨q, -, -, hu⟩ := (mem_rules_inlineUnits hw h).1 hr
  rw [(inlineUnits_spec hw h).1.isUnitRule, hu]

/-- Only rules that are there are taken over. -/
lemma inlineUnits_occurs [DecidableEq α] (hw : g.WellFormed) (h : g.inlineUnits.result = .ok g')
    {i : Nat} (ho : g'.Occurs i) : g.Occurs i := by
  obtain ⟨p, r, hr, hi⟩ := ho
  obtain ⟨q, -, hr, -⟩ := (mem_rules_inlineUnits hw h).1 hr
  exact ⟨q, r, hr, hi⟩

end Grammar

end Chomsky
