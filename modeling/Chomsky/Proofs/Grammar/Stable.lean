import Chomsky.Proofs.Grammar.Reachable

/-!
Indices. A symbol keeps its index, its identity and its kind in all later grammars, a name leads to
the index of its symbol and back, and only symbols with names are terminals.
-/

namespace Chomsky.Grammar

variable {α : Type} [DecidableEq α] {g g' : Grammar α} {i : Nat}

/-! ### Kinds -/

lemma Change.isTerminal_of_lt (h : g.Change g') (hi : i < g.symbols.length) :
    g'.isTerminal i = g.isTerminal i := by
  cases h with
  | declare hd =>
    obtain ⟨-, -, hx⟩ := declare_eq_ok.1 hd
    obtain ⟨-, rfl⟩ := Prod.mk.inj hx
    rw [isTerminal_append rfl, if_neg (Nat.ne_of_lt hi)]
  | synthetic hs => exact (makes_of_pushSynthetic hs).1.isTerminal i
  | newStart hs => exact (makes_of_pushStart hs).1.isTerminal i
  | insert hi' =>
    obtain ⟨-, -, -, -, rfl⟩ := insertRule_eq_ok.1 hi'
    exact isTerminal_withRule
  | remove hr =>
    obtain ⟨-, -, rfl⟩ := removeRule_eq_ok.1 hr
    exact isTerminal_withoutRule
  | moveStart => rfl
  | tag => exact isTerminal_withTag i

lemma Changes.length_le (h : g.Changes g') : g.symbols.length ≤ g'.symbols.length := by
  have hle := h.ids_extends.length_le
  rwa [length_ids, length_ids] at hle

lemma Changes.isTerminal_of_lt (h : g.Changes g') (hi : i < g.symbols.length) :
    g'.isTerminal i = g.isTerminal i := by
  induction h with
  | refl => rfl
  | tail hc h ih =>
    have hle := Changes.length_le hc
    rw [h.isTerminal_of_lt (by omega), ih]

/-- Every terminal has a name. -/
def TerminalsNamed (g : Grammar α) : Prop :=
  ∀ i, g.isTerminal i = true → ∃ a, g.ids[i]? = some (.user a)

namespace TerminalsNamed

/-- Only a declaration makes a terminal. -/
lemma change (h : g.TerminalsNamed) (hc : g.Change g') : g'.TerminalsNamed := by
  have hids : g.ids <+: g'.ids := Changes.ids_extends (.single hc)
  have hold : (∀ i, g'.isTerminal i = g.isTerminal i) → g'.TerminalsNamed := by
    intro hterm i ht
    rw [hterm] at ht
    obtain ⟨a, ha⟩ := h i ht
    exact ⟨a, ids_mono hids ha⟩
  cases hc with
  | @declare name terminal n _ hd =>
    obtain ⟨-, -, hx⟩ := declare_eq_ok.1 hd
    obtain ⟨-, rfl⟩ := Prod.mk.inj hx
    intro i ht
    rw [isTerminal_append rfl] at ht
    split at ht
    · next hi =>
      have hlen : i = g.ids.length := by rw [hi, length_ids]
      refine ⟨name, ?_⟩
      rw [ids_append rfl, hlen, List.getElem?_concat_length]
    · obtain ⟨a, ha⟩ := h i ht
      exact ⟨a, ids_mono hids ha⟩
  | synthetic hs => exact hold (makes_of_pushSynthetic hs).1.isTerminal
  | newStart hs => exact hold (makes_of_pushStart hs).1.isTerminal
  | insert hi =>
    obtain ⟨-, -, -, -, rfl⟩ := insertRule_eq_ok.1 hi
    exact hold fun _ => isTerminal_withRule
  | remove hr =>
    obtain ⟨-, -, rfl⟩ := removeRule_eq_ok.1 hr
    exact hold fun _ => isTerminal_withoutRule
  | moveStart => exact hold fun _ => rfl
  | tag => exact hold isTerminal_withTag

lemma changes (h : g.TerminalsNamed) (hc : g.Changes g') : g'.TerminalsNamed := by
  induction hc with
  | refl => exact h
  | tail _ hc ih => exact ih.change hc

end TerminalsNamed

lemma Reachable.terminalsNamed (h : g.Reachable) : g.TerminalsNamed := by
  obtain ⟨w, a, g₀, hc, hch⟩ := h.changes
  refine TerminalsNamed.changes (fun i ht => ?_) hch
  obtain ⟨-, rfl⟩ := create_eq_ok.1 hc
  have hi := lt_of_isTerminal ht
  obtain rfl : i = 0 := by simpa using hi
  exact ⟨a, rfl⟩

/-! ### Names -/

/-- A name leads to the index at which it stands, and to no other. -/
lemma index?_eq_some (hg : g.Consistent) {a : α} :
    g.index? a = some i ↔ g.ids[i]? = some (.user a) := by
  refine ⟨ids_of_index? hg.wellFormed, fun h => ?_⟩
  have hlt := lt_of_ids h
  have hle := hg.wellFormed.length_le
  rw [index?, (position?_eq_some hg.identified.nodup).2 h, Option.map_some,
    Width.wrap_of_le (by omega)]

/-- Symbols of other names do not change what a name leads to. -/
lemma index?_of_extends (hg : g.Consistent) (hg' : g'.Consistent) {new : List (Ident α)}
    (hids : g'.ids = g.ids ++ new) {a : α} (ha : .user a ∉ new) : g'.index? a = g.index? a := by
  refine Option.ext fun i => ?_
  rw [index?_eq_some hg, index?_eq_some hg']
  refine ⟨fun h => ?_, ids_mono ⟨new, hids.symm⟩⟩
  rw [hids] at h
  rcases Nat.lt_or_ge i g.ids.length with hlt | hge
  · rwa [List.getElem?_append_left hlt] at h
  · rw [List.getElem?_append_right hge] at h
    exact absurd (List.mem_of_getElem? h) ha

/-- A declared name leads to the new symbol, and all others to where they led before. -/
lemma index?_of_declare (hg : g.Consistent) {a : α} {terminal : Bool} {x : Nat × Grammar α}
    (hd : g.declare a terminal = .ok x) (b : α) :
    x.2.index? b = if b = a then some g.symbols.length else g.index? b := by
  have hg' := hg.changes (.single (.declare (i := x.1) hd))
  obtain ⟨-, -, rfl⟩ := declare_eq_ok.1 hd
  have hids : (g.append (.user a) terminal).2.ids = g.ids ++ [.user a] := ids_append rfl
  split
  · next hb =>
    rw [index?_eq_some hg', hids, hb, ← length_ids, List.getElem?_concat_length]
  · next hb => exact index?_of_extends hg hg' hids (by simpa using hb)

variable {es : List (Edit α)}

/-- **Indices are stable, and identities never clash.** Whatever is asked for later, a symbol keeps
its identity and its kind under its index. All identities are different, names and indices of named
symbols belong together, terminals have names, and the synthetic symbols are numbered without gaps
up to the next number. -/
theorem indices_stable (hg : g.Reachable) (he : (g.attemptAll es).result = .ok g') :
    (∀ i id, g.ids[i]? = some id → g'.ids[i]? = some id ∧ g'.isTerminal i = g.isTerminal i) ∧
      g.ids.Nodup ∧ (∀ a i, g.index? a = some i ↔ g.ids[i]? = some (.user a)) ∧
      (∀ i, g.isTerminal i = true → ∃ a, g.ids[i]? = some (.user a)) ∧
      g.ids.filterMap Ident.synthetic? = List.range g.nextSynthetic := by
  have hc := attemptAll_changes he
  have hcons := hg.consistent
  refine ⟨fun i id hid => ⟨ids_mono hc.ids_extends hid, hc.isTerminal_of_lt (lt_of_ids hid)⟩,
    hcons.identified.nodup, fun _ _ => index?_eq_some hcons, hg.terminalsNamed,
    hcons.identified.synthetics⟩

/-- A symbol that is declared after a normalisation comes after the synthetic ones, and a second
normalisation makes more of them. -/
theorem indices_stable_alternating :
    alternatingResult.Reachable ∧
      (∃ g, (alternatingResult.attemptAll [.declare "b" true,
        .addRule "S" ["b", "a"], .normalize]).result = .ok g ∧
        g.ids = alternatingResult.ids ++ [.user "b", .synthetic 2, .synthetic 3] ∧
        g.ids[4]? = some (.synthetic 1) ∧ g.isTerminal 4 = alternatingResult.isTerminal 4) ∧
      (alternatingResult.index? "a" = some 1 ↔ alternatingResult.ids[1]? = some (.user "a")) ∧
      ∃ a, alternatingResult.ids[1]? = some (.user a) := by
  obtain ⟨g, he, hids⟩ : ∃ g, (alternatingResult.attemptAll [.declare "b" true,
      .addRule "S" ["b", "a"], .normalize]).result = .ok g ∧
      g.ids = alternatingResult.ids ++ [.user "b", .synthetic 2, .synthetic 3] := ⟨_, rfl, rfl⟩
  obtain ⟨hstable, -, hindex, hnamed, -⟩ := indices_stable alternatingResult_reachable he
  obtain ⟨hid, hterm⟩ := hstable 4 (.synthetic 1) rfl
  exact ⟨alternatingResult_reachable, ⟨g, he, hids, hid, hterm⟩, hindex "a" 1, hnamed 1 rfl⟩

end Chomsky.Grammar
