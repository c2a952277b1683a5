import Chomsky.Proofs.Journal
import Chomsky.Proofs.Normalize.Synthetic

/-!
When a request to build a grammar is refused, by which name, and what a granted request changes. All
of it is told by the identities of the symbols, whatever was normalised before.
-/

namespace Chomsky.Grammar

variable {α : Type} {g g' : Grammar α} {p : Nat} {a : α} {as : List α} {e : Edit α}
  {rej : Rejection α}

/-! ### Refusals -/

/-- Why a rule of the symbol `p` is refused: it has no members, or a member is not known, of which
the first is named. -/
inductive RefusedRule (g : Grammar α) (p : Nat) : List α → Rejection α → Prop where
  | empty {id : Ident α} (hid : g.ids[p]? = some id) :
    RefusedRule g p [] ⟨.emptyRule, id.name?⟩
  | member {as known rest : List α} {a : α} (has : as = known ++ a :: rest)
    (hknown : ∀ b ∈ known, .user b ∈ g.ids) (ha : .user a ∉ g.ids) :
    RefusedRule g p as ⟨.unknownMember, some a⟩

/-- Why a request is refused. -/
inductive Refused (g : Grammar α) : Edit α → Rejection α → Prop where
  | duplicate {a : α} {terminal : Bool} (ha : .user a ∈ g.ids) :
    Refused g (.declare a terminal) ⟨.duplicateSymbol, some a⟩
  | full {a : α} {terminal : Bool} (ha : .user a ∉ g.ids)
    (hfull : g.symbols.length = g.width.max) :
    Refused g (.declare a terminal) ⟨.tooManySymbols, some a⟩
  | parent {a : α} {as : List α} (ha : .user a ∉ g.ids) :
    Refused g (.addRule a as) ⟨.unknownParent, some a⟩
  | terminal {a : α} {as : List α} {p : Nat} (hp : g.ids[p]? = some (.user a))
    (ht : g.isTerminal p = true) : Refused g (.addRule a as) ⟨.parentIsTerminal, some a⟩
  | rule {a : α} {as : List α} {p : Nat} {rej : Rejection α} (hp : g.ids[p]? = some (.user a))
    (ht : g.isTerminal p = false) (h : g.RefusedRule p as rej) : Refused g (.addRule a as) rej
  | startRule {as : List α} {rej : Rejection α} (h : g.RefusedRule g.start as rej) :
    Refused g (.addRuleToStart as) rej
  | tag {a tag : α} (ha : .user a ∉ g.ids) :
    Refused g (.assignTag a tag) ⟨.unknownSymbol, some a⟩

/-- Only a start symbol that was created leaves a refusal without a name. -/
lemma Refused.name_eq_none (hg : g.Regular) (h : g.Refused e rej) : rej.name = none ↔
    e = .addRuleToStart [] ∧ ∃ n, g.ids[g.start]? = some (.start n) := by
  cases h with
  | duplicate | full | parent | terminal | tag => simp
  | rule hp _ h =>
    cases h with
    | empty hid =>
      obtain rfl := Option.some.inj (hp.symm.trans hid)
      simp [Ident.name?]
    | member => simp
  | startRule h =>
    cases h with
    | empty hid =>
      cases hid' : g.ids[g.start]? with
      | none => rw [hid'] at hid; cases hid
      | some id' =>
        obtain rfl := Option.some.inj (hid'.symm.trans hid)
        cases id' with
        | user a => simp [Ident.name?]
        | synthetic n => exact absurd ⟨n, hid⟩ (hg.startsOnce.not_isSynthetic hg.consistent)
        | start n => simp [Ident.name?]
    | member has => simp [has]

variable [DecidableEq α]

lemma isSome_index? : (g.index? a).isSome = true ↔ .user a ∈ g.ids := by
  rw [← not_iff_not, ← index?_eq_none, Option.not_isSome_iff_eq_none]

lemma resolve_eq_error : g.resolve as = .error rej ↔ ∃ known a rest, as = known ++ a :: rest ∧
    (∀ b ∈ known, .user b ∈ g.ids) ∧ .user a ∉ g.ids ∧ rej = ⟨.unknownMember, some a⟩ := by
  fun_induction resolve g as with
  | case1 => simp
  | case2 a as ha =>
    have ha := index?_eq_none.1 ha
    constructor
    · intro h
      exact ⟨[], a, as, rfl, by simp, ha, (Except.error.inj h).symm⟩
    · rintro ⟨known, b, rest, has, hknown, -, rfl⟩
      cases known with
      | nil =>
        obtain ⟨rfl, -⟩ := List.cons.inj has
        rfl
      | cons x known =>
        obtain ⟨rfl, -⟩ := List.cons.inj has
        exact absurd (hknown a List.mem_cons_self) ha
  | case3 a as i hi ih =>
    have ha : .user a ∈ g.ids := isSome_index?.1 (Option.isSome_of_eq_some hi)
    rw [except_map_eq_error, ih]
    constructor
    · rintro ⟨known, b, rest, rfl, hknown, hb⟩
      refine ⟨a :: known, b, rest, rfl, fun x hx => ?_, hb⟩
      rcases List.mem_cons.1 hx with rfl | hx
      · exact ha
      · exact hknown x hx
    · rintro ⟨known, b, rest, has, hknown, hb, hrej⟩
      cases known with
      | nil =>
        obtain ⟨rfl, -⟩ := List.cons.inj has
        exact absurd ha hb
      | cons x known =>
        obtain ⟨-, rfl⟩ := List.cons.inj has
        exact ⟨known, b, rest, rfl, fun y hy => hknown y (List.mem_cons_of_mem x hy), hb, hrej⟩

lemma resolveRule_eq_error (hp : p < g.symbols.length) :
    g.resolveRule p as = .error rej ↔ g.RefusedRule p as rej := by
  obtain ⟨s, hs⟩ := exists_symbol hp
  have hid : g.ids[p]? = some s.id := by rw [getElem?_ids, hs]; rfl
  cases as with
  | nil =>
    have hempty : g.resolveRule p [] = .error ⟨.emptyRule, s.id.name?⟩ := by
      rw [resolveRule, hs]
      rfl
    rw [hempty]
    constructor
    · intro h
      exact Except.error.inj h ▸ .empty hid
    · intro h
      cases h with
      | empty hid' =>
        obtain rfl := Option.some.inj (hid.symm.trans hid')
        rfl
      | member has => simp at has
  | cons a as =>
    change g.resolve (a :: as) = .error rej ↔ _
    rw [resolve_eq_error]
    constructor
    · rintro ⟨known, b, rest, has, hknown, hb, rfl⟩
      exact .member has hknown hb
    · intro h
      cases h with
      | member has hknown hb => exact ⟨_, _, _, has, hknown, hb, rfl⟩

lemma declare_eq_error (hw : g.WellFormed) {terminal : Bool} :
    g.declare a terminal = .error rej ↔ g.Refused (.declare a terminal) rej := by
  have hle := hw.length_le
  unfold declare
  split
  · next h =>
    have ha : .user a ∈ g.ids := isSome_index?.1 h
    constructor
    · intro h
      exact Except.error.inj h ▸ .duplicate ha
    · intro h
      cases h with
      | duplicate => rfl
      | full hnot => exact absurd ha hnot
  · next h =>
    have ha : .user a ∉ g.ids := fun hmem => h (isSome_index?.2 hmem)
    split
    · next hfull =>
      constructor
      · intro h
        exact Except.error.inj h ▸ .full ha (by omega)
      · intro h
        cases h with
        | duplicate hmem => exact absurd hmem ha
        | full => rfl
    · next hroom =>
      refine iff_of_false (by simp) fun h => ?_
      cases h with
      | duplicate hmem => exact ha hmem
      | full _ hfull => omega

lemma addRule_eq_error (hg : g.Consistent) :
    g.addRule a as = .error rej ↔ g.Refused (.addRule a as) rej := by
  unfold addRule
  split
  · next h =>
    have ha := index?_eq_none.1 h
    constructor
    · intro h
      exact Except.error.inj h ▸ .parent ha
    · intro h
      cases h with
      | parent => rfl
      | terminal hp => exact absurd (List.mem_of_getElem? hp) ha
      | rule hp => exact absurd (List.mem_of_getElem? hp) ha
  · next p h =>
    have hp := (index?_eq_some hg).1 h
    have heq : ∀ {q}, g.ids[q]? = some (.user a) → q = p := fun hq =>
      Option.some.inj (((index?_eq_some hg).2 hq).symm.trans h)
    split
    · next ht =>
      constructor
      · intro h
        exact Except.error.inj h ▸ .terminal hp ht
      · intro h
        cases h with
        | parent ha => exact absurd (List.mem_of_getElem? hp) ha
        | terminal => rfl
        | rule hq ht' =>
          rw [heq hq, ht] at ht'
          cases ht'
    · next ht =>
      rw [except_map_eq_error, resolveRule_eq_error (lt_of_ids hp)]
      constructor
      · exact fun h => .rule hp (by simpa using ht) h
      · intro h
        cases h with
        | parent ha => exact absurd (List.mem_of_getElem? hp) ha
        | terminal hq ht' => exact absurd (heq hq ▸ ht') ht
        | rule hq _ h => exact heq hq ▸ h

lemma addRuleToStart_eq_error (hw : g.WellFormed) :
    g.addRuleToStart as = .error rej ↔ g.Refused (.addRuleToStart as) rej := by
  rw [addRuleToStart, except_map_eq_error, resolveRule_eq_error hw.start_lt]
  constructor
  · exact .startRule
  · intro h
    cases h with
    | startRule h => exact h

lemma assignTag_eq_error {tag : α} :
    g.assignTag a tag = .error rej ↔ g.Refused (.assignTag a tag) rej := by
  unfold assignTag
  split
  · next h =>
    have ha := index?_eq_none.1 h
    constructor
    · intro h
      exact Except.error.inj h ▸ .tag ha
    · intro h
      cases h with
      | tag => rfl
  · next p h =>
    refine iff_of_false (by simp) fun h' => ?_
    cases h' with
    | tag ha => simp [index?_eq_none.2 ha] at h

/-- **Requests are refused for these reasons and no others.** -/
theorem apply_eq_error (hg : g.Consistent) : g.apply e = .error rej ↔ g.Refused e rej := by
  cases e with
  | declare a terminal => exact except_map_eq_error.trans (declare_eq_error hg.wellFormed)
  | addRule a as => exact addRule_eq_error hg
  | addRuleToStart as => exact addRuleToStart_eq_error hg.wellFormed
  | assignTag a tag => exact except_map_eq_error.trans assignTag_eq_error
  | normalize => exact iff_of_false (by simp [apply]) fun h => by cases h

/-! ### Granted requests -/

/-- `g'` is `g` with a rule of `p` more. It comes after the other rules of `p`, and `p` after the
other parents of every member, unless they are there already. -/
structure Gains (g : Grammar α) (p : Nat) (r : List Nat) (g' : Grammar α) : Prop where
  rest : g' = { g with symbols := g'.symbols }
  symbols : ∀ i : Nat, g'.symbols[i]? = g.symbols[i]?.map fun s => { s with
    rules := if i = p ∧ r ∉ s.rules then s.rules ++ [r] else s.rules
    parents := if i ∈ r ∧ p ∉ s.parents then s.parents ++ [p] else s.parents }

omit [DecidableEq α] in
lemma insertRule_gains {r : List Nat} (h : (g.insertRule p r).result = .ok g') :
    g.Gains p r g' := by
  obtain ⟨-, -, -, -, rfl⟩ := insertRule_eq_ok.1 h
  refine ⟨rfl, fun i => ?_⟩
  rw [getElem?_withRule]
  refine congrArg (Option.map · _) (funext fun s => ?_)
  unfold Symbol.withRule OrderedSet.insert
  congr 1 <;> split <;> split <;> simp_all

lemma resolve_eq_ok (hw : g.WellFormed) {r : List Nat} (h : g.resolve as = .ok r) :
    List.Forall₂ (fun b m => g.ids[m]? = some (.user b)) as r := by
  fun_induction resolve g as generalizing r with
  | case1 =>
    obtain rfl := Except.ok.inj h
    exact .nil
  | case2 => cases h
  | case3 a as i hi ih =>
    obtain ⟨r, hr, rfl⟩ := except_map_eq_ok.1 h
    exact .cons (ids_of_index? hw hi) (ih hr)

/-- A rule whose members are known is put in, with one record. -/
lemma insertRule_granted (hw : g.WellFormed) (hp : p < g.symbols.length)
    (ht : g.isTerminal p = false) {r : List Nat} (hr : g.resolveRule p as = .ok r) :
    List.Forall₂ (fun b m => g.ids[m]? = some (.user b)) as r ∧
      ∃ g', g.insertRule p r = ⟨[.adding p r], .ok g'⟩ ∧ g.Gains p r g' := by
  obtain ⟨g', hg'⟩ := insertRule_of_resolveRule hw hp ht hr
  refine ⟨?_, g', Trail.ext (records_insertRule hg') hg', insertRule_gains hg'⟩
  unfold resolveRule at hr
  split at hr
  · cases hr
  · exact resolve_eq_ok hw hr

/-- **Requests fail exactly when they should, and then change nothing.** The reasons are those of
`Refused`, and no name is given only for an empty rule of a start symbol that was created. What is
granted adds the symbol, the rule with its parents, or the tag that it was asked for, and changes
nothing else. -/
theorem building_exact (hg : g.Reachable) :
    (∀ e rej, g.apply e = .error rej ↔ g.Refused e rej) ∧
    (∀ e rej, g.Refused e rej → g.attempt e = ⟨[], .ok g⟩ ∧
      (rej.name = none ↔ e = .addRuleToStart [] ∧ ∃ n, g.ids[g.start]? = some (.start n))) ∧
    (∀ a terminal x, g.declare a terminal = .ok x → x = (g.symbols.length,
      { g with symbols := g.symbols ++ [{ id := .user a, isTerminal := terminal }] })) ∧
    (∀ a as t, g.addRule a as = .ok t → ∃ p r g', g.ids[p]? = some (.user a) ∧
      List.Forall₂ (fun b m => g.ids[m]? = some (.user b)) as r ∧
      t = ⟨[.adding p r], .ok g'⟩ ∧ g.Gains p r g') ∧
    (∀ as t, g.addRuleToStart as = .ok t → ∃ r g',
      List.Forall₂ (fun b m => g.ids[m]? = some (.user b)) as r ∧
      t = ⟨[.adding g.start r], .ok g'⟩ ∧ g.Gains g.start r g') ∧
    ∀ a tag g', g.assignTag a tag = .ok g' → ∃ i, g.ids[i]? = some (.user a) ∧
      g' = { g with symbols := g'.symbols } ∧ ∀ j : Nat, g'.symbols[j]? =
        g.symbols[j]?.map fun s => { s with tag := if j = i then some tag else s.tag } := by
  have hcons := hg.consistent
  have hw := hcons.wellFormed
  refine ⟨fun e rej => apply_eq_error hcons, fun e rej h => ⟨?_, h.name_eq_none hg.regular⟩,
    fun a terminal x h => ?_, fun a as t h => ?_, fun as t h => ?_, fun a tag g' h => ?_⟩
  · rw [attempt, (apply_eq_error hcons).2 h]
    rfl
  · obtain ⟨-, hlt, rfl⟩ := declare_eq_ok.1 h
    rw [append, Width.wrap_of_le (Nat.le_of_lt hlt)]
  · obtain ⟨p, r, hp, ht, hr, rfl⟩ := addRule_eq_ok.1 h
    have hp := ids_of_index? hw hp
    obtain ⟨hmembers, g', hg', hgains⟩ := insertRule_granted hw (lt_of_ids hp) ht hr
    exact ⟨p, r, g', hp, hmembers, hg', hgains⟩
  · obtain ⟨r, hr, rfl⟩ := addRuleToStart_eq_ok.1 h
    obtain ⟨hmembers, g', hg', hgains⟩ := insertRule_granted hw hw.start_lt hw.start_nonterminal hr
    exact ⟨r, g', hmembers, hg', hgains⟩
  · obtain ⟨i, hi, rfl⟩ := assignTag_eq_ok.1 h
    refine ⟨i, ids_of_index? hw hi, rfl, fun j => ?_⟩
    rw [getElem?_withTag, Option.map_eq_map]
    refine congrArg (Option.map · _) (funext fun s => ?_)
    split <;> simp_all [eq_comm]

/-- An empty rule for a start symbol that was created is refused without a name, and a rule that is
there already adds nothing. -/
theorem building_exact_alternating : alternatingResult.Reachable ∧
    alternatingResult.apply (.addRuleToStart []) = .error ⟨.emptyRule, none⟩ ∧
    alternatingResult.apply (.addRule "S" ["a", "b", "c"]) =
      .error ⟨.unknownMember, some "b"⟩ ∧
    alternatingResult.attempt (.addRule "S" ["a", "b", "c"]) = ⟨[], .ok alternatingResult⟩ ∧
    ∃ p r g', alternatingResult.addRule "S" ["a"] = .ok ⟨[.adding p r], .ok g'⟩ ∧
      alternatingResult.Gains p r g' := by
  obtain ⟨herror, hkeep, -, hrule, -⟩ := building_exact alternatingResult_reachable
  have hid : alternatingResult.ids[alternatingResult.start]? = some (.start 0) := rfl
  have hempty : alternatingResult.Refused (.addRuleToStart []) ⟨.emptyRule, none⟩ :=
    .startRule (.empty hid)
  have hfirst : ["a", "b", "c"] = ["a"] ++ "b" :: ["c"] := rfl
  have hmember : alternatingResult.Refused (.addRule "S" ["a", "b", "c"])
      ⟨.unknownMember, some "b"⟩ :=
    .rule (p := 0) rfl rfl (.member hfirst (by decide) (by decide))
  obtain ⟨p, r, g', -, -, ht, hgains⟩ := hrule "S" ["a"] _ rfl
  exact ⟨alternatingResult_reachable, (herror _ _).2 hempty, (herror _ _).2 hmember,
    (hkeep _ _ hmember).1, p, r, g', congrArg _ ht, hgains⟩

end Chomsky.Grammar
