import Mathlib.Tactic.Common
import Chomsky.Grammar.Edit
import Chomsky.Proofs.Trail

/-!
What the primitive changes do to the parts of a grammar: when each of them goes through, and the
rules, the parents and the kind of every symbol after it.
-/

namespace Chomsky.Grammar

variable {α : Type} {g g' : Grammar α} {p i : Nat} {r : List Nat}

lemma symbol_eq_ok {s : Symbol α} : g.symbol i = .ok s ↔ g.symbols[i]? = some s :=
  required_eq_ok

lemma exists_symbol (h : i < g.symbols.length) : ∃ s, g.symbols[i]? = some s :=
  ⟨_, List.getElem?_eq_getElem h⟩

lemma lt_of_getElem? {s : Symbol α} (h : g.symbols[i]? = some s) : i < g.symbols.length :=
  (List.getElem?_eq_some_iff.1 h).1

lemma isTerminal_eq {s : Symbol α} (h : g.symbols[i]? = some s) :
    g.isTerminal i = s.isTerminal := by simp [isTerminal, h]

lemma rules_eq {s : Symbol α} (h : g.symbols[i]? = some s) : g.rules i = s.rules := by
  simp [rules, h]

lemma parents_eq {s : Symbol α} (h : g.symbols[i]? = some s) : g.parents i = s.parents := by
  simp [parents, h]

lemma isTerminal_of_le (h : g.symbols.length ≤ i) : g.isTerminal i = false := by
  simp [isTerminal, List.getElem?_eq_none h]

lemma rules_of_le (h : g.symbols.length ≤ i) : g.rules i = [] := by
  simp [rules, List.getElem?_eq_none h]

lemma parents_of_le (h : g.symbols.length ≤ i) : g.parents i = [] := by
  simp [parents, List.getElem?_eq_none h]

lemma lt_of_isTerminal (h : g.isTerminal i = true) : i < g.symbols.length := by
  by_contra hi
  simp [isTerminal_of_le (Nat.le_of_not_lt hi)] at h

lemma lt_of_mem_rules (h : r ∈ g.rules p) : p < g.symbols.length := by
  by_contra hp
  simp [rules_of_le (Nat.le_of_not_lt hp)] at h

lemma isNormalRule_iff : g.isNormalRule r = true ↔
    (∃ t, r = [t] ∧ g.isTerminal t = true) ∨
      ∃ l m, r = [l, m] ∧ g.isTerminal l = false ∧ g.isTerminal m = false := by
  match r with
  | [] => simp [isNormalRule]
  | [t] => simp [isNormalRule]
  | [l, m] => simp [isNormalRule]
  | _ :: _ :: _ :: _ => simp [isNormalRule]

lemma isNormal_iff : g.isNormal = true ↔ ∀ p, ∀ r ∈ g.rules p, g.isNormalRule r = true := by
  simp only [isNormal, List.all_eq_true]
  constructor
  · intro h p r hr
    obtain ⟨s, hs⟩ := exists_symbol (lt_of_mem_rules hr)
    exact h s (List.mem_of_getElem? hs) r (rules_eq hs ▸ hr)
  · intro h s hs r hr
    obtain ⟨p, hp⟩ := List.mem_iff_getElem?.1 hs
    exact h p r (by rwa [rules_eq hp])

/-! ### Appending a symbol -/

section Append

variable {id : Ident α} {t : Bool}

lemma getElem?_append (h : g'.symbols = g.symbols ++ [{ id := id, isTerminal := t }]) (i : Nat) :
    g'.symbols[i]? = if i = g.symbols.length then some { id := id, isTerminal := t }
      else g.symbols[i]? := by
  rw [h]
  rcases Nat.lt_trichotomy i g.symbols.length with hi | rfl | hi
  · rw [List.getElem?_append_left hi, if_neg (by omega)]
  · simp
  · rw [if_neg (by omega), List.getElem?_eq_none (by simp; omega), List.getElem?_eq_none (by omega)]

lemma rules_append (h : g'.symbols = g.symbols ++ [{ id := id, isTerminal := t }]) (i : Nat) :
    g'.rules i = g.rules i := by
  by_cases hi : i = g.symbols.length
  · rw [rules, getElem?_append h, if_pos hi, rules_of_le (by omega)]; rfl
  · rw [rules, getElem?_append h, if_neg hi, rules]

lemma parents_append (h : g'.symbols = g.symbols ++ [{ id := id, isTerminal := t }]) (i : Nat) :
    g'.parents i = g.parents i := by
  by_cases hi : i = g.symbols.length
  · rw [parents, getElem?_append h, if_pos hi, parents_of_le (by omega)]; rfl
  · rw [parents, getElem?_append h, if_neg hi, parents]

lemma isTerminal_append (h : g'.symbols = g.symbols ++ [{ id := id, isTerminal := t }]) (i : Nat) :
    g'.isTerminal i = if i = g.symbols.length then t else g.isTerminal i := by
  rw [isTerminal, getElem?_append h]
  split <;> simp [isTerminal]

/-- A new non-terminal looks like a symbol that is not there. -/
lemma isTerminal_append_false (h : g'.symbols = g.symbols ++ [{ id := id, isTerminal := false }])
    (i : Nat) : g'.isTerminal i = g.isTerminal i := by
  rw [isTerminal_append h]
  split
  · rw [isTerminal_of_le (by omega)]
  · rfl

end Append

/-- A symbol made for the grammar itself comes last and has no rules and no parents. -/
structure Makes (g : Grammar α) (id : Ident α) (i : Nat) (g' : Grammar α) : Prop where
  room : g.symbols.length < g.width.max
  new : ∀ s ∈ g.symbols, s.id ≠ id
  index : i = g.symbols.length
  symbols : g'.symbols = g.symbols ++ [{ id := id, isTerminal := false }]
  width : g'.width = g.width
  start : g'.start = g.start

namespace Makes

variable {id : Ident α} {n : Nat}

lemma length (h : g.Makes id n g') : g'.symbols.length = g.symbols.length + 1 := by
  simp [h.symbols]

lemma rules (h : g.Makes id n g') (i : Nat) : g'.rules i = g.rules i := rules_append h.symbols i

lemma parents (h : g.Makes id n g') (i : Nat) : g'.parents i = g.parents i :=
  parents_append h.symbols i

lemma isTerminal (h : g.Makes id n g') (i : Nat) : g'.isTerminal i = g.isTerminal i :=
  isTerminal_append_false h.symbols i

lemma nonterminal (h : g.Makes id n g') : g'.isTerminal n = false :=
  (h.isTerminal n).trans (isTerminal_of_le (Nat.le_of_eq h.index.symm))

end Makes

section Push

variable [DecidableEq α] {id : Ident α} {t : Bool}

lemma push_eq_ok {x : Nat × Grammar α} : g.push id t = .ok x ↔
    g.symbols.length < g.width.max ∧ (∀ s ∈ g.symbols, s.id ≠ id) ∧ x = g.append id t := by
  unfold push
  split
  · next h => exact ⟨nofun, fun h' => absurd h (by omega)⟩
  · next h =>
    split
    · next h' =>
      obtain ⟨s, hs, rfl⟩ : ∃ s ∈ g.symbols, s.id = id := by simpa using h'
      exact ⟨nofun, fun h'' => absurd rfl (h''.2.1 s hs)⟩
    · next h' =>
      have hid : ∀ s ∈ g.symbols, s.id ≠ id := by simpa using h'
      simp only [Except.ok.injEq, Nat.lt_of_not_le h, true_and]
      exact ⟨fun hx => ⟨hid, hx.symm⟩, fun hx => hx.2.symm⟩

lemma nextCount_eq_ok {n m : Nat} : nextCount n = .ok m ↔ n < 0xFFFFFFFF ∧ m = n + 1 := by
  unfold nextCount
  split
  · next h => simp [h, eq_comm]
  · next h => simp [h]

lemma makes_of_push {n : Nat} {g₀ : Grammar α} (h : g.push id false = .ok (n, g'))
    (hs : g.symbols = g₀.symbols) (hw : g.width = g₀.width) (ht : g.start = g₀.start) :
    g₀.Makes id n g' := by
  obtain ⟨hlt, hid, hx⟩ := push_eq_ok.1 h
  obtain ⟨rfl, rfl⟩ := Prod.mk.inj hx
  rw [hs, hw] at hlt
  rw [hs] at hid
  exact ⟨hlt, hid, by rw [hs, hw, Width.wrap_of_le (by omega)],
    by simp [hs], hw, ht⟩

lemma makes_of_pushSynthetic {n : Nat} (h : g.pushSynthetic = .ok (n, g')) :
    g.Makes (.synthetic g.nextSynthetic) n g' ∧ g'.nextSynthetic = g.nextSynthetic + 1 ∧
      g'.nextStart = g.nextStart := by
  unfold pushSynthetic at h
  rcases hc : nextCount g.nextSynthetic with e | m
  · rw [hc] at h; cases h
  · rw [hc] at h
    have hp : ({ g with nextSynthetic := m } : Grammar α).push (.synthetic g.nextSynthetic) false =
      .ok (n, g') := h
    obtain ⟨-, rfl⟩ := nextCount_eq_ok.1 hc
    obtain ⟨-, -, hx⟩ := push_eq_ok.1 hp
    exact ⟨makes_of_push hp rfl rfl rfl, by rw [(Prod.mk.inj hx).2]; exact ⟨rfl, rfl⟩⟩

lemma makes_of_pushStart {n : Nat} (h : g.pushStart = .ok (n, g')) :
    g.Makes (.start g.nextStart) n g' ∧ g'.nextStart = g.nextStart + 1 ∧
      g'.nextSynthetic = g.nextSynthetic := by
  unfold pushStart at h
  rcases hc : nextCount g.nextStart with e | m
  · rw [hc] at h; cases h
  · rw [hc] at h
    have hp : ({ g with nextStart := m } : Grammar α).push (.start g.nextStart) false =
      .ok (n, g') := h
    obtain ⟨-, rfl⟩ := nextCount_eq_ok.1 hc
    obtain ⟨-, -, hx⟩ := push_eq_ok.1 hp
    exact ⟨makes_of_push hp rfl rfl rfl, by rw [(Prod.mk.inj hx).2]; exact ⟨rfl, rfl⟩⟩

end Push

/-! ### Putting a rule in -/

lemma insert_of_not_mem {β : Type} [DecidableEq β] {xs : List β} {x : β} (h : x ∉ xs) :
    OrderedSet.insert xs x = xs ++ [x] := if_neg h

lemma insertRule_eq_ok : (g.insertRule p r).result = .ok g' ↔
    p < g.symbols.length ∧ g.isTerminal p = false ∧ r ≠ [] ∧
      (∀ m ∈ r, m < g.symbols.length) ∧ g' = g.withRule p r := by
  unfold insertRule
  rw [Trail.bind_eq_ok]
  constructor
  · rintro ⟨s, hs, h⟩
    rw [Trail.result_lift, symbol_eq_ok] at hs
    split at h
    · cases h
    · next ht =>
      split at h
      · cases h
      · next hr =>
        rw [Trail.record_bind_eq_ok] at h
        split at h
        · next hm =>
          cases h
          exact ⟨lt_of_getElem? hs, by rw [isTerminal_eq hs]; simpa using ht, by simpa using hr,
            by simpa using hm, rfl⟩
        · cases h
  · rintro ⟨hp, ht, hr, hm, rfl⟩
    obtain ⟨s, hs⟩ := exists_symbol hp
    rw [isTerminal_eq hs] at ht
    have hr : r.isEmpty = false := by simpa using hr
    have hm : r.all (· < g.symbols.length) = true := by simpa using hm
    refine ⟨s, symbol_eq_ok.2 hs, ?_⟩
    rw [if_neg (by simp [ht]), if_neg (by simp [hr]), Trail.record_bind_eq_ok, if_pos hm]
    rfl

lemma getElem?_withRule (i : Nat) :
    (g.withRule p r).symbols[i]? = g.symbols[i]?.map (Symbol.withRule p r i) := by
  simp [withRule]

@[simp] lemma length_withRule : (g.withRule p r).symbols.length = g.symbols.length := by
  simp [withRule]

@[simp] lemma isTerminal_withRule : (g.withRule p r).isTerminal i = g.isTerminal i := by
  simp only [isTerminal, getElem?_withRule]
  cases g.symbols[i]? <;> rfl

@[simp] lemma start_withRule : (g.withRule p r).start = g.start := rfl

@[simp] lemma width_withRule : (g.withRule p r).width = g.width := rfl

lemma rules_withRule (hp : p < g.symbols.length) (i : Nat) :
    (g.withRule p r).rules i = if i = p then OrderedSet.insert (g.rules p) r else g.rules i := by
  rw [rules, getElem?_withRule]
  split
  · next h =>
    subst h
    obtain ⟨s, hs⟩ := exists_symbol hp
    simp [hs, rules, Symbol.withRule]
  · next h => cases hs : g.symbols[i]? <;> simp [hs, rules, Symbol.withRule, h]

lemma parents_withRule (hr : ∀ m ∈ r, m < g.symbols.length) (i : Nat) :
    (g.withRule p r).parents i =
      if i ∈ r then OrderedSet.insert (g.parents i) p else g.parents i := by
  rw [parents, getElem?_withRule]
  by_cases hi : i ∈ r
  · obtain ⟨s, hs⟩ := exists_symbol (hr i hi)
    simp [hs, parents, Symbol.withRule, hi]
  · cases hs : g.symbols[i]? <;> simp [hs, parents, Symbol.withRule, hi]

lemma mem_rules_withRule (hp : p < g.symbols.length) {r' : List Nat} :
    r' ∈ (g.withRule p r).rules i ↔ r' ∈ g.rules i ∨ i = p ∧ r' = r := by
  rw [rules_withRule hp]
  split
  · next hi => simp [hi]
  · next hi => simp [hi]

lemma mem_parents_withRule (hr : ∀ m ∈ r, m < g.symbols.length) {q : Nat} :
    q ∈ (g.withRule p r).parents i ↔ q ∈ g.parents i ∨ i ∈ r ∧ q = p := by
  rw [parents_withRule hr]
  split
  · next hi => simp [hi]
  · next hi => simp [hi]

lemma mem_rules_of_insertRule {r' : List Nat} (h : (g.insertRule p r).result = .ok g')
    (hr : r' ∈ g.rules i) : r' ∈ g'.rules i := by
  obtain ⟨hp, -, -, -, rfl⟩ := insertRule_eq_ok.1 h
  exact (mem_rules_withRule hp).2 (.inl hr)

/-! ### Taking a rule out -/

lemma removeRule_eq_ok : (g.removeRule p r).result = .ok g' ↔
    r ∈ g.rules p ∧ (∀ m ∈ r, m < g.symbols.length) ∧ g' = g.withoutRule p r := by
  unfold removeRule
  rw [Trail.bind_eq_ok]
  constructor
  · rintro ⟨s, hs, h⟩
    rw [Trail.result_lift, symbol_eq_ok] at hs
    split at h
    · cases h
    · next hr =>
      split at h
      · cases h
      · next hm =>
        rw [Trail.record_bind_eq_ok] at h
        cases h
        exact ⟨by rw [rules_eq hs]; simpa using hr, by simpa using hm, rfl⟩
  · rintro ⟨hr, hm, rfl⟩
    obtain ⟨s, hs⟩ := exists_symbol (lt_of_mem_rules hr)
    rw [rules_eq hs] at hr
    have hm : r.all (· < g.symbols.length) = true := by simpa using hm
    refine ⟨s, symbol_eq_ok.2 hs, ?_⟩
    rw [if_neg (by simp [hr]), if_neg (by simp [hm]), Trail.record_bind_eq_ok]
    rfl

lemma getElem?_withoutRule (i : Nat) : (g.withoutRule p r).symbols[i]? =
    g.symbols[i]?.map (Symbol.withoutRule p r ((g.rules p).erase r) i) := by
  simp [withoutRule]

@[simp] lemma length_withoutRule : (g.withoutRule p r).symbols.length = g.symbols.length := by
  simp [withoutRule]

@[simp] lemma isTerminal_withoutRule : (g.withoutRule p r).isTerminal i = g.isTerminal i := by
  simp only [isTerminal, getElem?_withoutRule]
  cases g.symbols[i]? <;> rfl

@[simp] lemma start_withoutRule : (g.withoutRule p r).start = g.start := rfl

@[simp] lemma width_withoutRule : (g.withoutRule p r).width = g.width := rfl

@[simp] lemma rules_withoutRule :
    (g.withoutRule p r).rules i = if i = p then (g.rules p).erase r else g.rules i := by
  rw [rules, getElem?_withoutRule]
  cases hs : g.symbols[i]? with
  | none =>
    have hi : g.rules i = [] := by simp [rules, hs]
    split
    · next h => subst h; simp [hi]
    · simp [hi]
  | some s =>
    split
    · next h => simp [Symbol.withoutRule, h]
    · next h => simp [Symbol.withoutRule, h, rules, hs]

lemma mem_rules_of_withoutRule {r' : List Nat} (h : r' ∈ (g.withoutRule p r).rules i) :
    r' ∈ g.rules i := by
  rw [rules_withoutRule] at h
  split at h
  · next hi => exact hi ▸ List.mem_of_mem_erase h
  · exact h

/-- All other rules stay. -/
lemma mem_rules_of_removeRule {r' : List Nat} (h : (g.removeRule p r).result = .ok g')
    (hr : r' ∈ g.rules i) (hne : i = p → r' ≠ r) : r' ∈ g'.rules i := by
  obtain ⟨-, -, rfl⟩ := removeRule_eq_ok.1 h
  rw [rules_withoutRule]
  split
  · next hi => exact (List.mem_erase_of_ne (hne hi)).2 (hi ▸ hr)
  · exact hr

lemma not_mem_of_removeRule (hn : (g.rules p).Nodup) (h : (g.removeRule p r).result = .ok g') :
    r ∉ g'.rules p := by
  obtain ⟨-, -, rfl⟩ := removeRule_eq_ok.1 h
  rw [rules_withoutRule, if_pos rfl]
  exact hn.not_mem_erase

lemma parents_withoutRule (hr : ∀ m ∈ r, m < g.symbols.length) (i : Nat) :
    (g.withoutRule p r).parents i =
      if i ∈ r ∧ ∀ r' ∈ (g.rules p).erase r, i ∉ r' then (g.parents i).erase p
      else g.parents i := by
  rw [parents, getElem?_withoutRule]
  by_cases hi : i ∈ r
  · obtain ⟨s, hs⟩ := exists_symbol (hr i hi)
    simp [hs, parents, Symbol.withoutRule, hi]
  · cases hs : g.symbols[i]? <;> simp [hs, parents, Symbol.withoutRule, hi]

end Chomsky.Grammar
