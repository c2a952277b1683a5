import Chomsky.Proofs.Normalize.Once
import Chomsky.Proofs.Normalize.Synthetic

/-!
What normalisation leaves alone. All of its changes put new symbols and new rules behind the old
ones, or take out a rule that is not normal. So the symbols stay as they are, and the normal rules
of a symbol stay in front of its rules, in their order.
-/

namespace Chomsky

variable {α : Type}

lemma OrderedSet.prefix_insert {β : Type} [DecidableEq β] (xs : List β) (x : β) :
    xs <+: insert xs x := by
  unfold insert
  split
  · exact List.prefix_rfl
  · exact List.prefix_append xs [x]

namespace Grammar

variable {g g' g'' : Grammar α} {p n : Nat} {r : List Nat}

/-- A new symbol has no tag. -/
lemma tag?_append {id : Ident α} {t : Bool}
    (h : g'.symbols = g.symbols ++ [{ id := id, isTerminal := t }]) (i : Nat) :
    g'.tag? i = g.tag? i := by
  rw [tag?, getElem?_append h]
  split
  · next hi => rw [tag?, List.getElem?_eq_none hi.ge]; rfl
  · rfl

def normalRules (g : Grammar α) (p : Nat) : List (List Nat) := (g.rules p).filter g.isNormalRule

/-- `g'` has the kinds and the tags of `g`, and the normal rules of `g` before all others. -/
structure Spares (g g' : Grammar α) : Prop where
  isTerminal : ∀ i, g'.isTerminal i = g.isTerminal i
  tag : ∀ i, g'.tag? i = g.tag? i
  rules : ∀ p, g.normalRules p <+: g'.normalRules p

namespace Spares

lemma refl (g : Grammar α) : g.Spares g :=
  ⟨fun _ => rfl, fun _ => rfl, fun _ => List.prefix_rfl⟩

lemma trans (h : g.Spares g') (h' : g'.Spares g'') : g.Spares g'' :=
  ⟨fun i => (h'.isTerminal i).trans (h.isTerminal i), fun i => (h'.tag i).trans (h.tag i),
    fun p => (h.rules p).trans (h'.rules p)⟩

lemma isNormalRule (h : ∀ i, g'.isTerminal i = g.isTerminal i) :
    g'.isNormalRule = g.isNormalRule :=
  funext fun _ => isNormalRule_congr fun m _ => h m

/-- Where all rules are kept, the normal ones are. -/
lemma of_rules (ht : ∀ i, g'.isTerminal i = g.isTerminal i) (htag : ∀ i, g'.tag? i = g.tag? i)
    (hr : ∀ p, g.rules p <+: g'.rules p) : g.Spares g' := by
  refine ⟨ht, htag, fun p => ?_⟩
  rw [normalRules, normalRules, isNormalRule ht]
  exact (hr p).filter _

/-! ### The changes -/

lemma makes {id : Ident α} (h : g.Makes id n g') : g.Spares g' :=
  of_rules h.isTerminal (tag?_append h.symbols) fun p => by rw [h.rules]

lemma insert (h : (g.insertRule p r).result = .ok g') : g.Spares g' := by
  obtain ⟨hp, -, -, -, rfl⟩ := insertRule_eq_ok.1 h
  refine of_rules (fun _ => isTerminal_withRule) (fun i => ?_) fun i => ?_
  · rw [tag?, tag?, getElem?_withRule]
    cases g.symbols[i]? <;> rfl
  · rw [rules_withRule hp]
    split
    · next hi => exact hi ▸ OrderedSet.prefix_insert _ r
    · exact List.prefix_rfl

lemma remove (h : (g.removeRule p r).result = .ok g') (hr : g.isNormalRule r = false) :
    g.Spares g' := by
  obtain ⟨-, -, rfl⟩ := removeRule_eq_ok.1 h
  refine ⟨fun _ => isTerminal_withoutRule, fun i => ?_, fun i => ?_⟩
  · rw [tag?, tag?, getElem?_withoutRule]
    cases g.symbols[i]? <;> rfl
  · rw [normalRules, normalRules, isNormalRule fun _ => isTerminal_withoutRule, rules_withoutRule]
    split
    · next hi =>
      have hnot : r ∉ (g.rules p).filter g.isNormalRule := fun hmem => by
        rw [(List.mem_filter.1 hmem).2] at hr
        cases hr
      rw [← List.erase_filter, List.erase_of_not_mem hnot, hi]
    · exact List.prefix_rfl

lemma foldlM {β : Type} {f : Grammar α → β → Trail Record (Grammar α)} {xs : List β}
    (hf : ∀ c, ∀ x ∈ xs, ∀ c', g.Spares c → (f c x).result = .ok c' → c.Spares c')
    (h : (xs.foldlM f g).result = .ok g') : g.Spares g' :=
  Trail.foldlM_keeps g.Spares (fun c x hx c' hc h => hc.trans (hf c x hx c' hc h)) (.refl g) h

end Spares

/-! ### The steps -/

variable [DecidableEq α]

lemma isolateStart_spares (h : g.isolateStart.result = .ok g') : g.Spares g' := by
  obtain ⟨-, rfl⟩ | ⟨-, n, g₁, g₂, hp, hi, rfl⟩ := isolateStart_eq_ok.1 h
  · exact .refl g'
  · -- the start of a grammar is none of what is spared
    have hg₂ := (Spares.makes (makes_of_pushStart hp).1).trans (.insert hi)
    exact ⟨hg₂.isTerminal, hg₂.tag, hg₂.rules⟩

lemma shieldMembers_spares {ms ms' : List Nat}
    (h : (g.shieldMembers ms).result = .ok (ms', g')) : g.Spares g' := by
  induction ms generalizing g ms' with
  | nil =>
    obtain ⟨-, rfl⟩ := shieldMembers_nil_eq_ok.1 h
    exact .refl _
  | cons m ms ih =>
    obtain ⟨m', g₁, ms'', hm, hms, -⟩ := shieldMembers_cons_eq_ok.1 h
    obtain ⟨-, hm⟩ | ⟨-, -, rfl⟩ := hm
    · obtain ⟨g₀, hp, hi⟩ := pushStandIn_eq_ok.1 hm
      exact ((Spares.makes (makes_of_pushSynthetic hp).1).trans (.insert hi)).trans (ih hms)
    · exact ih hms

lemma shieldRule_spares (hr : g.needsShield r = true)
    (h : (shieldRule p g r).result = .ok g') : g.Spares g' := by
  obtain ⟨r', g₁, g₂, hm, hi, hr'⟩ := shieldRule_eq_ok.1 h
  have hg₂ := (shieldMembers_spares hm).trans (.insert hi)
  refine hg₂.trans (.remove hr' ?_)
  rw [Spares.isNormalRule hg₂.isTerminal, isNormalRule_of_needsShield hr]

lemma shieldTerminals_spares (hw : g.WellFormed) (h : g.shieldTerminals.result = .ok g') :
    g.Spares g' :=
  shieldRule_rewrites.keeps_all g.Spares
    (fun _ _ _ _ _ hc _ hr h => hc.trans (shieldRule_spares hr h)) hw (.refl g) h

lemma insertChain_spares (h : (g.insertChain p r).result = .ok g') : g.Spares g' := by
  fun_induction insertChain g p r with
  | case1 g p m m' m'' ms ih =>
    obtain ⟨n, g₁, g₂, hp, hi, h⟩ := insertChain_cons_eq_ok.1 h
    exact ((Spares.makes (makes_of_pushSynthetic hp).1).trans (.insert hi)).trans (ih n g₂ h)
  | case2 g p r => exact .insert h

lemma splitRule_spares (hr : 2 < r.length) (h : (splitRule p g r).result = .ok g') :
    g.Spares g' := by
  obtain ⟨g₁, hc, hr'⟩ := splitRule_eq_ok.1 h
  refine (insertChain_spares hc).trans (.remove hr' ?_)
  match r with
  | _ :: _ :: _ :: _ => rfl

lemma splitLongRules_spares (hw : g.WellFormed) (h : g.splitLongRules.result = .ok g') :
    g.Spares g' :=
  splitRule_rewrites.keeps_all g.Spares
    (fun _ _ _ _ _ hc _ hr h => hc.trans (splitRule_spares (of_decide_eq_true hr) h)) hw
    (.refl g) h

omit [DecidableEq α] in
lemma isNormalRule_of_isUnitRule (h : g.isUnitRule r = true) : g.isNormalRule r = false := by
  obtain ⟨m, rfl, hm⟩ := isUnitRule_iff.1 h
  exact hm

omit [DecidableEq α] in
/-- What is taken over comes after the normal rules, and only unit rules go. -/
lemma replaceUnits_spares {rs : List (List Nat)} (h : (g.replaceUnits p rs).result = .ok g') :
    g.Spares g' := by
  obtain ⟨g₁, hi, hr⟩ := replaceUnits_eq_ok.1 h
  have hg₁ : g.Spares g₁ := .foldlM (fun _ _ _ _ _ h => .insert h) hi
  refine hg₁.trans (.foldlM (fun c r hr c' hc h => .remove h ?_) hr)
  rw [Spares.isNormalRule (hg₁.trans hc).isTerminal]
  exact isNormalRule_of_isUnitRule (List.mem_filter.1 hr).2

omit [DecidableEq α] in
lemma inlineUnits_spares (h : g.inlineUnits.result = .ok g') : g.Spares g' :=
  .foldlM (fun _ _ _ _ _ => replaceUnits_spares) h

lemma pass_spares (hw : g.WellFormed) (h : g.pass.result = .ok g') : g.Spares g' := by
  obtain ⟨g₁, g₂, g₃, h₁, h₂, h₃, -, h₄⟩ := pass_eq_ok.1 h
  have hw₁ := hw.changes (isolateStart_changes h₁)
  have hw₂ := hw₁.changes (shieldTerminals_reshapes h₂).changes
  exact (((isolateStart_spares h₁).trans (shieldTerminals_spares hw₁ h₂)).trans
    (splitLongRules_spares hw₂ h₃)).trans (inlineUnits_spares h₄)

variable {c : NormalGrammar α}

lemma normalize_spares (hw : g.WellFormed) (h : g.normalize.result = .ok (g', c)) :
    g.Spares g' :=
  normalize_keeps_of_wellFormed g.Spares (fun _ _ hw hg h => hg.trans (pass_spares hw h)) hw
    (.refl g) h

/-- **What normalisation leaves alone.** All symbols keep their identities, kinds and tags under
their indices, and no terminals are made. The rules of a symbol start with those that were normal
before, in their order, and the rules that follow are others. -/
theorem normalize_frame (hg : g.Reachable) (h : g.normalize.result = .ok (g', c)) :
    g.symbols.length ≤ g'.symbols.length ∧
    (∀ (i : Nat) (id : Ident α), g.ids[i]? = some id → g'.ids[i]? = some id) ∧
    (∀ i, g'.isTerminal i = g.isTerminal i) ∧ (∀ i, g'.tag? i = g.tag? i) ∧
    ∀ p, ∃ added, g'.rules p = (g.rules p).filter g.isNormalRule ++ added ∧
      ∀ r ∈ added, ¬(r ∈ g.rules p ∧ g.isNormalRule r = true) := by
  have hw := hg.wellFormed
  have hc := normalize_changes h
  have hw' := hw.changes hc
  have hs := normalize_spares hw h
  refine ⟨hc.length_le, fun i id hid => ids_mono hc.ids_extends hid, hs.isTerminal, hs.tag,
    fun p => ?_⟩
  have hall : g'.normalRules p = g'.rules p := List.filter_eq_self.2 fun r hr =>
    isNormalRule_iff.2 ((normalize_inNormalForm hw h).rules p r hr)
  obtain ⟨added, hadded⟩ := hs.rules p
  rw [hall] at hadded
  refine ⟨added, hadded.symm, fun r hr hold => ?_⟩
  have hnodup := hw'.nodup_rules p
  rw [← hadded] at hnodup
  exact (List.nodup_append.1 hnodup).2.2 r (List.mem_filter.2 hold) r hr rfl

/-- The rule that was normal comes to the front. -/
theorem normalize_frame_alternating : alternating.Reachable ∧
    alternating.normalize.result = .ok (alternatingResult, alternatingSnapshot) ∧
    (alternating.rules 0).filter alternating.isNormalRule = [[1]] ∧
    (∃ added, alternatingResult.rules 0 = [[1]] ++ added) ∧
    ∀ i, alternatingResult.isTerminal i = alternating.isTerminal i := by
  obtain ⟨-, -, hterm, -, hrules⟩ := normalize_frame alternating_reachable alternating_normalize
  obtain ⟨added, hadded, -⟩ := hrules 0
  exact ⟨alternating_reachable, alternating_normalize, rfl, ⟨added, hadded⟩, hterm⟩

end Grammar

end Chomsky
