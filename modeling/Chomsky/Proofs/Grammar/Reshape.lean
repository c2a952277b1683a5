import Chomsky.Proofs.Grammar.Identity
import Chomsky.Proofs.Normalize.Steps

/-!
Every step of normalisation after the first is a chain of changes of three kinds: a symbol is made
for a part of a rule, a rule is put in, a rule is taken out. Such a chain leaves the start symbol
and what was named alone, and all symbols that it makes are numbered parts of rules.
-/

namespace Chomsky.Grammar

open Relation

variable {α : Type} [DecidableEq α] {g g' : Grammar α} {p i : Nat} {r : List Nat}

inductive Reshape (g : Grammar α) : Grammar α → Prop where
  | synthetic {i : Nat} {g' : Grammar α} (h : g.pushSynthetic = .ok (i, g')) : Reshape g g'
  | insert {p : Nat} {r : List Nat} {g' : Grammar α}
    (h : (g.insertRule p r).result = .ok g') : Reshape g g'
  | remove {p : Nat} {r : List Nat} {g' : Grammar α}
    (h : (g.removeRule p r).result = .ok g') : Reshape g g'

abbrev Reshapes : Grammar α → Grammar α → Prop := ReflTransGen Reshape

lemma Reshape.change (h : g.Reshape g') : g.Change g' := by
  cases h with
  | synthetic h => exact .synthetic h
  | insert h => exact .insert h
  | remove h => exact .remove h

lemma Reshapes.changes (h : g.Reshapes g') : g.Changes g' :=
  ReflTransGen.mono (fun _ _ => Reshape.change) _ _ h

/-! ### What such a chain leaves alone -/

/-- `g'` has the symbols of `g` and after them synthetic ones, and the same start. -/
structure Enlarges (g g' : Grammar α) : Prop where
  width : g'.width = g.width
  start : g'.start = g.start
  nextStart : g'.nextStart = g.nextStart
  isTerminal : ∀ i, g'.isTerminal i = g.isTerminal i
  ids : ∃ ns : List Nat, g'.ids = g.ids ++ ns.map .synthetic

omit [DecidableEq α] in
lemma Enlarges.refl (g : Grammar α) : g.Enlarges g :=
  ⟨rfl, rfl, rfl, fun _ => rfl, [], (List.append_nil _).symm⟩

omit [DecidableEq α] in
lemma Enlarges.trans {g'' : Grammar α} (h : g.Enlarges g') (h' : g'.Enlarges g'') :
    g.Enlarges g'' where
  width := h'.width.trans h.width
  start := h'.start.trans h.start
  nextStart := h'.nextStart.trans h.nextStart
  isTerminal i := (h'.isTerminal i).trans (h.isTerminal i)
  ids := by
    obtain ⟨ns, hns⟩ := h.ids
    obtain ⟨ms, hms⟩ := h'.ids
    exact ⟨ns ++ ms, by rw [hms, hns, List.map_append, List.append_assoc]⟩

lemma Reshape.enlarges (h : g.Reshape g') : g.Enlarges g' := by
  cases h with
  | synthetic h =>
    obtain ⟨hm, -, ht⟩ := makes_of_pushSynthetic h
    exact ⟨hm.width, hm.start, ht, hm.isTerminal, [g.nextSynthetic], hm.ids⟩
  | insert h =>
    obtain ⟨-, -, -, -, rfl⟩ := insertRule_eq_ok.1 h
    exact ⟨rfl, rfl, rfl, fun _ => isTerminal_withRule, [], by simp⟩
  | remove h =>
    obtain ⟨-, -, rfl⟩ := removeRule_eq_ok.1 h
    exact ⟨rfl, rfl, rfl, fun _ => isTerminal_withoutRule, [], by simp⟩

lemma Reshapes.enlarges (h : g.Reshapes g') : g.Enlarges g' := by
  induction h with
  | refl => exact .refl g
  | tail _ hr ih => exact ih.trans hr.enlarges

/-! ### The steps -/

lemma reshapes_foldlM {β : Type} {f : Grammar α → β → Trail Record (Grammar α)} {xs : List β}
    (hf : ∀ g x g', (f g x).result = .ok g' → g.Reshapes g')
    (h : (xs.foldlM f g).result = .ok g') : g.Reshapes g' :=
  Trail.foldlM_keeps (fun c => g.Reshapes c) (fun b x _ _ hb hbc => hb.trans (hf b x _ hbc))
    .refl h

lemma pushStandIn_reshapes {t n : Nat} (h : (g.pushStandIn t).result = .ok (n, g')) :
    g.Reshapes g' := by
  obtain ⟨g₁, hp, hi⟩ := pushStandIn_eq_ok.1 h
  exact (ReflTransGen.single (.synthetic hp)).tail (.insert hi)

lemma shieldMembers_reshapes {ms ms' : List Nat}
    (h : (g.shieldMembers ms).result = .ok (ms', g')) : g.Reshapes g' := by
  induction ms generalizing g ms' with
  | nil =>
    obtain ⟨-, rfl⟩ := shieldMembers_nil_eq_ok.1 h
    exact .refl
  | cons m ms ih =>
    obtain ⟨m', g₁, ms'', hm, hms, -⟩ := shieldMembers_cons_eq_ok.1 h
    obtain ⟨-, hm⟩ | ⟨-, -, rfl⟩ := hm
    · exact (pushStandIn_reshapes hm).trans (ih hms)
    · exact ih hms

lemma shieldRule_reshapes (h : (shieldRule p g r).result = .ok g') : g.Reshapes g' := by
  obtain ⟨r', g₁, g₂, hr, hi, hr'⟩ := shieldRule_eq_ok.1 h
  exact ((shieldMembers_reshapes hr).tail (.insert hi)).tail (.remove hr')

lemma shieldRulesOf_reshapes (h : (g.shieldRulesOf p).result = .ok g') : g.Reshapes g' :=
  reshapes_foldlM (fun _ _ _ => shieldRule_reshapes) h

lemma shieldTerminals_reshapes (h : g.shieldTerminals.result = .ok g') : g.Reshapes g' :=
  reshapes_foldlM (fun _ _ _ => shieldRulesOf_reshapes) h

lemma insertChain_reshapes (h : (g.insertChain p r).result = .ok g') : g.Reshapes g' := by
  fun_induction insertChain g p r with
  | case1 g p m m' m'' ms ih =>
    obtain ⟨n, g₁, g₂, hp, hi, h⟩ := insertChain_cons_eq_ok.1 h
    exact ((ReflTransGen.single (.synthetic hp)).tail (.insert hi)).trans (ih n g₂ h)
  | case2 g p r => exact .single (.insert h)

lemma splitRule_reshapes (h : (splitRule p g r).result = .ok g') : g.Reshapes g' := by
  obtain ⟨g₁, hc, hr⟩ := splitRule_eq_ok.1 h
  exact (insertChain_reshapes hc).tail (.remove hr)

lemma splitRulesOf_reshapes (h : (g.splitRulesOf p).result = .ok g') : g.Reshapes g' :=
  reshapes_foldlM (fun _ _ _ => splitRule_reshapes) h

lemma splitLongRules_reshapes (h : g.splitLongRules.result = .ok g') : g.Reshapes g' :=
  reshapes_foldlM (fun _ _ _ => splitRulesOf_reshapes) h

lemma replaceUnits_reshapes {rs : List (List Nat)} (h : (g.replaceUnits p rs).result = .ok g') :
    g.Reshapes g' := by
  obtain ⟨g₁, hi, hr⟩ := replaceUnits_eq_ok.1 h
  exact (reshapes_foldlM (fun _ _ _ h => .single (.insert h)) hi).trans
    (reshapes_foldlM (fun _ _ _ h => .single (.remove h)) hr)

lemma inlineUnits_reshapes (h : g.inlineUnits.result = .ok g') : g.Reshapes g' :=
  reshapes_foldlM (fun _ _ _ => replaceUnits_reshapes) h

end Chomsky.Grammar
