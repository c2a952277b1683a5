import Mathlib.Data.List.Basic
import Mathlib.Logic.Function.Basic
import Chomsky.Proofs.Grammar.Stable
import Chomsky.Proofs.ParseTree

/-!
Coverings. A grammar covers another one if each symbol of that one stands for a list of its
symbols, a named symbol for the one of the same name, and every rule there is a derivation here. It
then derives all words that the other one derives, and goes on to do so as long as both are granted
the same requests.
-/

namespace Chomsky.Grammar

open Relation

variable {α : Type} [DecidableEq α] {g g' : Grammar α} {f : Nat → List Nat}

/-- Each symbol `i` of `g'` stands for the list `f i` of symbols of `g`. -/
structure Covers (g g' : Grammar α) (f : Nat → List Nat) : Prop where
  rules : ∀ p, ∀ r ∈ g'.rules p, ReflTransGen g.ruleSet.Produces (f p) (r.flatMap f)
  names : ∀ a, (g'.index? a).map f = (g.index? a).map fun j => [j]
  kinds : ∀ a, (g'.index? a).map g'.isTerminal = (g.index? a).map g.isTerminal
  start : f g'.start = [g.start]

namespace Covers

variable (h : g.Covers g' f) {a : α} {as : List α} {i j p p' : Nat} {r r' : List Nat}

include h

/-! ### Names -/

lemma exists_of_index? (ha : g.index? a = some j) :
    ∃ i, g'.index? a = some i ∧ f i = [j] ∧ g'.isTerminal i = g.isTerminal j := by
  have hname := h.names a
  rw [ha, Option.map_some] at hname
  obtain ⟨i, hi, hfi⟩ := Option.map_eq_some_iff.1 hname
  have hkind := h.kinds a
  rw [ha, hi] at hkind
  exact ⟨i, hi, hfi, Option.some.inj hkind⟩

lemma exists_of_index?_back (ha : g'.index? a = some i) :
    ∃ j, g.index? a = some j ∧ f i = [j] ∧ g'.isTerminal i = g.isTerminal j := by
  have hname := h.names a
  rw [ha, Option.map_some] at hname
  obtain ⟨j, hj, hfi⟩ := Option.map_eq_some_iff.1 hname.symm
  have hkind := h.kinds a
  rw [ha, hj] at hkind
  exact ⟨j, hj, hfi.symm, Option.some.inj hkind⟩

lemma resolve (hr : g.resolve as = .ok r) : ∃ r', g'.resolve as = .ok r' ∧ r'.flatMap f = r := by
  induction as generalizing r with
  | nil =>
    obtain rfl : [] = r := Except.ok.inj hr
    exact ⟨[], rfl, rfl⟩
  | cons a as ih =>
    unfold Grammar.resolve at hr
    split at hr
    · cases hr
    · next j hj =>
      obtain ⟨s, hs, rfl⟩ := except_map_eq_ok.1 hr
      obtain ⟨i, hi, hfi, -⟩ := h.exists_of_index? hj
      obtain ⟨s', hs', rfl⟩ := ih hs
      refine ⟨i :: s', ?_, by rw [List.flatMap_cons, hfi, List.singleton_append]⟩
      rw [Grammar.resolve, hi]
      exact except_map_eq_ok.2 ⟨s', hs', rfl⟩

lemma resolveRule (p' : Nat) (hr : g.resolveRule p as = .ok r) :
    ∃ r', g'.resolveRule p' as = .ok r' ∧ r'.flatMap f = r := by
  unfold Grammar.resolveRule at hr ⊢
  split at hr
  · cases hr
  · next has =>
    rw [if_neg has]
    exact h.resolve hr

/-- The terminals of a word of `g'` stand for the terminals of the same names. -/
lemma exists_word {w' : List Nat} (hw : as.map g'.index? = w'.map some)
    (hterm : ∀ t ∈ w', g'.isTerminal t = true) :
    as.map g.index? = (w'.flatMap f).map some ∧ ∀ t ∈ w'.flatMap f, g.isTerminal t = true := by
  induction as generalizing w' with
  | nil =>
    obtain rfl : w' = [] := by simpa using hw.symm
    exact ⟨rfl, fun t ht => absurd ht List.not_mem_nil⟩
  | cons a as ih =>
    obtain ⟨i, w', rfl, hi, hw⟩ := List.map_eq_cons_iff.1 hw.symm
    obtain ⟨j, hj, hfi, hij⟩ := h.exists_of_index?_back hi.symm
    obtain ⟨hword, hterms⟩ := ih hw.symm fun t ht => hterm t (List.mem_cons_of_mem i ht)
    rw [List.flatMap_cons, hfi]
    refine ⟨by simp [hj, hword], fun t ht => ?_⟩
    rcases List.mem_cons.1 ht with rfl | ht
    · exact hij ▸ hterm i List.mem_cons_self
    · exact hterms t ht

/-- **A grammar derives what a grammar that it covers derives**, said in names. -/
theorem derives {w' : List Nat} (hw : as.map g'.index? = w'.map some)
    (hd : g'.Derives g'.start w') :
    ∃ w : List Nat, as.map g.index? = w.map some ∧ g.Derives g.start w := by
  obtain ⟨hd, hterm⟩ := hd
  obtain ⟨hword, hterms⟩ := h.exists_word hw hterm
  have hlift := RuleSet.produces_standFor h.rules hd
  rw [List.flatMap_singleton, h.start] at hlift
  exact ⟨_, hword, hlift, hterms⟩

/-! ### One request -/

lemma insertRule {g₁ g₁' : Grammar α} (hp : f p' = [p]) (hr : r'.flatMap f = r)
    (hi : (g.insertRule p r).result = .ok g₁) (hi' : (g'.insertRule p' r').result = .ok g₁') :
    g₁.Covers g₁' f := by
  obtain ⟨hlt, -, -, -, rfl⟩ := insertRule_eq_ok.1 hi
  obtain ⟨hlt', -, -, -, rfl⟩ := insertRule_eq_ok.1 hi'
  refine ⟨fun q s hs => ?_, fun b => ?_, fun b => ?_, h.start⟩
  · obtain hs | ⟨rfl, rfl⟩ := (mem_rules_withRule hlt').1 hs
    · exact RuleSet.produces_mono (fun p r hr => (mem_rules_withRule hlt).2 (.inl hr))
        (h.rules q s hs)
    · have hmem : (g.withRule p r).ruleSet p r := (mem_rules_withRule hlt).2 (.inr ⟨rfl, rfl⟩)
      rw [hp, hr]
      exact .single (by simpa using RuleSet.Produces.replace [] [] hmem)
  · rw [index?_congr ids_withRule rfl, index?_congr ids_withRule rfl, h.names]
  · have hkind : ∀ {g : Grammar α} {p r}, (g.withRule p r).isTerminal = g.isTerminal :=
      funext fun _ => isTerminal_withRule
    rw [index?_congr ids_withRule rfl, index?_congr ids_withRule rfl, hkind, hkind, h.kinds]

lemma withTag {tag : α} : (g.withTag j tag).Covers (g'.withTag i tag) f := by
  have hrules : (g.withTag j tag).ruleSet = g.ruleSet := by
    funext p r
    rw [ruleSet, rules_withTag]
    rfl
  refine ⟨fun q s hs => ?_, fun b => ?_, fun b => ?_, h.start⟩
  · rw [rules_withTag] at hs
    exact hrules ▸ h.rules q s hs
  · rw [index?_congr ids_withTag rfl, index?_congr ids_withTag rfl, h.names]
  · rw [index?_congr ids_withTag rfl, index?_congr ids_withTag rfl,
      funext isTerminal_withTag, funext isTerminal_withTag, h.kinds]

/-- A new symbol stands for the one that is declared under the same name. -/
lemma declare (hg : g.Consistent) (hg' : g'.Consistent) {terminal : Bool} {x x' : Nat × Grammar α}
    (hd : g.declare a terminal = .ok x) (hd' : g'.declare a terminal = .ok x') :
    x.2.Covers x'.2 (Function.update f g'.symbols.length [g.symbols.length]) := by
  have hindex := index?_of_declare hg hd
  have hindex' := index?_of_declare hg' hd'
  have hw := hg.wellFormed
  have hw' := hg'.wellFormed
  obtain ⟨-, -, rfl⟩ := declare_eq_ok.1 hd
  obtain ⟨-, -, rfl⟩ := declare_eq_ok.1 hd'
  have hold : ∀ i < g'.symbols.length,
      Function.update f g'.symbols.length [g.symbols.length] i = f i :=
    fun i hi => Function.update_of_ne (Nat.ne_of_lt hi) _ _
  refine ⟨fun p r hr => ?_, fun b => ?_, fun b => ?_, (hold _ hw'.start_lt).trans h.start⟩
  · rw [rules_append rfl] at hr
    rw [hold p (lt_of_mem_rules hr),
      List.flatMap_congr fun m hm => hold m (hw'.member_lt p r hr m hm)]
    exact RuleSet.produces_mono (fun p r hr => by rwa [ruleSet, rules_append rfl])
      (h.rules p r hr)
  · rw [hindex, hindex']
    split
    · simp
    · rw [← h.names]
      exact Option.map_congr fun i hi => hold i (lt_of_ids (ids_of_index? hw' hi))
  · rw [hindex, hindex']
    split
    · rw [Option.map_some, Option.map_some, isTerminal_append rfl, if_pos rfl,
        isTerminal_append rfl, if_pos rfl]
    · have hkind : ∀ {g : Grammar α} {i : Nat}, g.WellFormed → g.index? b = some i →
          (g.append (.user a) terminal).2.isTerminal i = g.isTerminal i := by
        intro g i hw hi
        rw [isTerminal_append rfl, if_neg (Nat.ne_of_lt (lt_of_ids (ids_of_index? hw hi)))]
      rw [Option.map_congr fun i hi => hkind hw hi, Option.map_congr fun i hi => hkind hw' hi,
        h.kinds]

/-- **A request that is granted here is granted there**, and the grammars go on covering. -/
theorem apply (hg : g.Consistent) (hg' : g'.Consistent) {e : Edit α} (he : e ≠ .normalize)
    {t : Trail Record (Grammar α)} {g₁ : Grammar α} (ht : g.apply e = .ok t)
    (hg₁ : t.result = .ok g₁)
    (hroom : e.declares = true → g'.symbols.length < g'.width.max) :
    ∃ t' g₁' f', g'.apply e = .ok t' ∧ t'.result = .ok g₁' ∧ g₁.Covers g₁' f' := by
  cases e with
  | declare a terminal =>
    obtain ⟨x, hd, rfl⟩ := except_map_eq_ok.1 ht
    obtain rfl := Except.ok.inj hg₁
    obtain ⟨hnew, -⟩ := declare_eq_ok.1 hd
    have hnew' : g'.index? a = none := by
      have hname := h.names a
      rwa [hnew, Option.map_none, Option.map_eq_none_iff] at hname
    have hd' : g'.declare a terminal = .ok (g'.append (.user a) terminal) :=
      declare_eq_ok.2 ⟨hnew', hroom rfl, rfl⟩
    exact ⟨_, _, _, except_map_eq_ok.2 ⟨_, hd', rfl⟩, rfl, h.declare hg hg' hd hd'⟩
  | addRule a as =>
    obtain ⟨p, r, hp, hterm, hr, rfl⟩ := addRule_eq_ok.1 ht
    obtain ⟨p', hp', hfp, hkind⟩ := h.exists_of_index? hp
    obtain ⟨r', hr', hfr⟩ := h.resolveRule p' hr
    have ht' := addRule_eq_ok.2 ⟨p', r', hp', hkind.trans hterm, hr', rfl⟩
    obtain ⟨g₁', hg₁'⟩ := apply_goes_through hg'.wellFormed he ht'
    exact ⟨_, g₁', f, ht', hg₁', h.insertRule hfp hfr hg₁ hg₁'⟩
  | addRuleToStart as =>
    obtain ⟨r, hr, rfl⟩ := addRuleToStart_eq_ok.1 ht
    obtain ⟨r', hr', hfr⟩ := h.resolveRule g'.start hr
    have ht' := addRuleToStart_eq_ok.2 ⟨r', hr', rfl⟩
    obtain ⟨g₁', hg₁'⟩ := apply_goes_through hg'.wellFormed he ht'
    exact ⟨_, g₁', f, ht', hg₁', h.insertRule h.start hfr hg₁ hg₁'⟩
  | assignTag a b =>
    obtain ⟨g₂, ha, rfl⟩ := except_map_eq_ok.1 ht
    obtain rfl := Except.ok.inj hg₁
    obtain ⟨j, hj, rfl⟩ := assignTag_eq_ok.1 ha
    obtain ⟨i, hi, -⟩ := h.exists_of_index? hj
    have ha' : g'.assignTag a b = .ok (g'.withTag i b) := assignTag_eq_ok.2 ⟨i, hi, rfl⟩
    exact ⟨_, _, f, except_map_eq_ok.2 ⟨_, ha', rfl⟩, rfl, h.withTag⟩
  | normalize => exact absurd rfl he

end Covers

/-! ### All requests -/

/-- **What is granted here is granted there**, as long as there is room for all new symbols. -/
theorem Covers.granted (h : g.Covers g' f) (hg : g.Consistent) (hg' : g'.Consistent)
    {es : List (Edit α)} (hes : ∀ e ∈ es, e ≠ .normalize) {g₁ : Grammar α}
    (hgranted : g.Granted es g₁)
    (hroom : g'.symbols.length + es.countP Edit.declares ≤ g'.width.max) :
    ∃ g₁' f', g'.Granted es g₁' ∧ g₁.Covers g₁' f' := by
  induction hgranted generalizing g' f with
  | nil => exact ⟨g', f, .nil, h⟩
  | @cons g g₂ g₁ e es t ht hg₂ _ ih =>
    have he := hes e List.mem_cons_self
    rw [List.countP_cons] at hroom
    obtain ⟨t', g₂', f', ht', hg₂', h'⟩ := h.apply hg hg' he ht hg₂ fun hd => by
      rw [if_pos hd] at hroom
      omega
    have hc := (apply_request ht hg₂).changes
    have hc' := (apply_request ht' hg₂').changes
    have hlen := length_of_apply he ht' hg₂'
    obtain ⟨g₁', f'', hrest, hcovers⟩ := ih h' (hg.changes hc) (hg'.changes hc')
      (fun e hmem => hes e (List.mem_cons_of_mem _ hmem)) (by rw [hlen, hc'.width]; omega)
    exact ⟨g₁', f'', .cons ht' hg₂' hrest, hcovers⟩

end Chomsky.Grammar
