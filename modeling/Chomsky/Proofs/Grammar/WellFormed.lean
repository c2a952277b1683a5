import Mathlib.Logic.Relation
import Chomsky.Proofs.Grammar.Primitive

/-!
The invariant of grammars under construction: the parents of a symbol are those that its
occurrences in rules make, and rules are nonempty lists of symbols that belong to
non-terminals. Every request is a chain of primitive changes, and each of those keeps it.
-/

namespace Chomsky.Grammar

variable {α : Type}

structure WellFormed (g : Grammar α) : Prop where
  bits_le : g.width.bits ≤ 64
  length_le : g.symbols.length ≤ g.width.max
  start_lt : g.start < g.symbols.length
  start_nonterminal : g.isTerminal g.start = false
  rules_terminal : ∀ i, g.isTerminal i = true → g.rules i = []
  rule_ne_nil : ∀ p, ∀ r ∈ g.rules p, r ≠ []
  member_lt : ∀ p, ∀ r ∈ g.rules p, ∀ m ∈ r, m < g.symbols.length
  mem_parents : ∀ s p, p ∈ g.parents s ↔ ∃ r ∈ g.rules p, s ∈ r
  nodup_rules : ∀ p, (g.rules p).Nodup
  nodup_parents : ∀ s, (g.parents s).Nodup

/-- Some rule contains the symbol. -/
def Occurs (g : Grammar α) (i : Nat) : Prop := ∃ p, ∃ r ∈ g.rules p, i ∈ r

/-- One primitive change. A request carries out some of them, one after another. -/
inductive Change [DecidableEq α] (g : Grammar α) : Grammar α → Prop where
  | declare {name : α} {terminal : Bool} {i : Nat} {g' : Grammar α}
    (h : g.declare name terminal = .ok (i, g')) : Change g g'
  | synthetic {i : Nat} {g' : Grammar α} (h : g.pushSynthetic = .ok (i, g')) : Change g g'
  | newStart {i : Nat} {g' : Grammar α} (h : g.pushStart = .ok (i, g')) : Change g g'
  | insert {p : Nat} {r : List Nat} {g' : Grammar α}
    (h : (g.insertRule p r).result = .ok g') : Change g g'
  | remove {p : Nat} {r : List Nat} {g' : Grammar α}
    (h : (g.removeRule p r).result = .ok g') : Change g g'
  | moveStart {i : Nat} (hi : i < g.symbols.length) (ht : g.isTerminal i = false) :
    Change g { g with start := i }
  | tag {i : Nat} {tag : α} : Change g (g.withTag i tag)

abbrev Changes [DecidableEq α] : Grammar α → Grammar α → Prop := Relation.ReflTransGen Change

variable {g g' : Grammar α}

/-! ### Every primitive change keeps the invariant -/

namespace WellFormed

lemma indices (h : g.WellFormed) : g.indices = List.range g.symbols.length := by
  have hw : ∀ i ∈ List.range g.symbols.length, g.width.wrap i = i := fun i hi =>
    Width.wrap_of_le (by have := h.length_le; have := List.mem_range.1 hi; omega)
  unfold Grammar.indices
  rw [List.map_congr_left hw, List.map_id']

lemma parent_lt (h : g.WellFormed) {s p : Nat} (hp : p ∈ g.parents s) : p < g.symbols.length := by
  obtain ⟨r, hr, -⟩ := (h.mem_parents s p).1 hp
  exact lt_of_mem_rules hr

lemma nonterminal_of_mem (h : g.WellFormed) {p : Nat} {r : List Nat} (hr : r ∈ g.rules p) :
    g.isTerminal p = false := by
  by_contra ht
  rw [h.rules_terminal p (by simpa using ht)] at hr
  exact absurd hr List.not_mem_nil

lemma startOccurs_iff (h : g.WellFormed) : g.startOccurs = true ↔ g.Occurs g.start := by
  simp only [startOccurs, Occurs, ← h.mem_parents, Bool.not_eq_true',
    List.isEmpty_eq_false_iff_exists_mem]

/-- A symbol without rules and parents at the end, be it a terminal or not. -/
lemma append (h : g.WellFormed) {id : Ident α} {t : Bool}
    (hs : g'.symbols = g.symbols ++ [{ id := id, isTerminal := t }])
    (hlt : g.symbols.length < g.width.max) (hw : g'.width = g.width) (hst : g'.start = g.start) :
    g'.WellFormed where
  bits_le := by rw [hw]; exact h.bits_le
  length_le := by rw [hs, hw, List.length_append]; exact hlt
  start_lt := by rw [hs, hst]; simpa using Nat.lt_succ_of_lt h.start_lt
  start_nonterminal := by
    rw [hst, isTerminal_append hs, if_neg (Nat.ne_of_lt h.start_lt)]
    exact h.start_nonterminal
  rules_terminal i ht := by
    rw [rules_append hs]
    rw [isTerminal_append hs] at ht
    split at ht
    · exact rules_of_le (by omega)
    · exact h.rules_terminal i ht
  rule_ne_nil p r hr := by rw [rules_append hs] at hr; exact h.rule_ne_nil p r hr
  member_lt p r hr m hm := by
    rw [rules_append hs] at hr
    have := h.member_lt p r hr m hm
    rw [hs, List.length_append]
    omega
  mem_parents s p := by rw [parents_append hs, rules_append hs]; exact h.mem_parents s p
  nodup_rules p := by rw [rules_append hs]; exact h.nodup_rules p
  nodup_parents s := by rw [parents_append hs]; exact h.nodup_parents s

lemma makes (h : g.WellFormed) {id : Ident α} {n : Nat} (hm : g.Makes id n g') :
    g'.WellFormed := h.append hm.symbols hm.room hm.width hm.start

lemma insertRule (h : g.WellFormed) {p : Nat} {r : List Nat}
    (hi : (g.insertRule p r).result = .ok g') : g'.WellFormed := by
  obtain ⟨hp, ht, hr, hm, rfl⟩ := insertRule_eq_ok.1 hi
  refine ⟨h.bits_le, by simpa using h.length_le, by simpa using h.start_lt,
    by simpa using h.start_nonterminal, fun i hi' => ?_, fun q r' hr' => ?_,
    fun q r' hr' m hm' => ?_, fun s q => ?_, fun q => ?_, fun s => ?_⟩
  · rw [isTerminal_withRule] at hi'
    have hip : i ≠ p := by rintro rfl; simp [ht] at hi'
    rw [rules_withRule hp, if_neg hip]
    exact h.rules_terminal i hi'
  · rcases (mem_rules_withRule hp).1 hr' with hr' | ⟨-, rfl⟩
    · exact h.rule_ne_nil q r' hr'
    · exact hr
  · rw [length_withRule]
    rcases (mem_rules_withRule hp).1 hr' with hr' | ⟨-, rfl⟩
    · exact h.member_lt q r' hr' m hm'
    · exact hm m hm'
  · simp only [mem_parents_withRule hm, mem_rules_withRule hp, h.mem_parents]
    constructor
    · rintro (⟨r', hr', hs⟩ | ⟨hs, rfl⟩)
      · exact ⟨r', .inl hr', hs⟩
      · exact ⟨r, .inr ⟨rfl, rfl⟩, hs⟩
    · rintro ⟨r', hr' | ⟨rfl, rfl⟩, hs⟩
      · exact .inl ⟨r', hr', hs⟩
      · exact .inr ⟨hs, rfl⟩
  · rw [rules_withRule hp]
    split
    · exact OrderedSet.nodup_insert (h.nodup_rules p) r
    · exact h.nodup_rules q
  · rw [parents_withRule hm]
    split
    · exact OrderedSet.nodup_insert (h.nodup_parents s) p
    · exact h.nodup_parents s

/-- A symbol keeps the parent if another rule of the parent still contains it. -/
lemma mem_parents_withoutRule (h : g.WellFormed) {p : Nat} {r : List Nat}
    (hm : ∀ m ∈ r, m < g.symbols.length) (s q : Nat) :
    q ∈ (g.withoutRule p r).parents s ↔ ∃ r' ∈ (g.withoutRule p r).rules q, s ∈ r' := by
  rw [parents_withoutRule hm, rules_withoutRule]
  by_cases hq : q = p
  · subst hq
    rw [if_pos rfl]
    constructor
    · intro hq
      split at hq
      · exact absurd hq (h.nodup_parents s).not_mem_erase
      · next hs =>
        obtain ⟨r', hr', hs'⟩ := (h.mem_parents s q).1 hq
        by_cases hrr : r' = r
        · subst hrr
          by_contra hno
          exact hs ⟨hs', fun r'' hr'' hs'' => hno ⟨r'', hr'', hs''⟩⟩
        · exact ⟨r', (List.mem_erase_of_ne hrr).2 hr', hs'⟩
    · rintro ⟨r', hr', hs'⟩
      rw [if_neg fun hs => hs.2 r' hr' hs']
      exact (h.mem_parents s q).2 ⟨r', List.mem_of_mem_erase hr', hs'⟩
  · rw [if_neg hq, ← h.mem_parents]
    split
    · exact List.mem_erase_of_ne hq
    · rfl

lemma removeRule (h : g.WellFormed) {p : Nat} {r : List Nat}
    (hi : (g.removeRule p r).result = .ok g') : g'.WellFormed := by
  obtain ⟨hr, hm, rfl⟩ := removeRule_eq_ok.1 hi
  refine ⟨h.bits_le, by simpa using h.length_le, by simpa using h.start_lt,
    by simpa using h.start_nonterminal, fun i hi => ?_,
    fun q r' hr' => h.rule_ne_nil q r' (mem_rules_of_withoutRule hr'), fun q r' hr' m hm' => ?_,
    h.mem_parents_withoutRule hm, fun q => ?_, fun s => ?_⟩
  · rw [isTerminal_withoutRule] at hi
    have hnil := h.rules_terminal i hi
    refine List.eq_nil_iff_forall_not_mem.2 fun r' hr' => ?_
    have hr' := mem_rules_of_withoutRule hr'
    rw [hnil] at hr'
    exact List.not_mem_nil hr'
  · rw [length_withoutRule]
    exact h.member_lt q r' (mem_rules_of_withoutRule hr') m hm'
  · rw [rules_withoutRule]
    split
    · exact (h.nodup_rules p).erase r
    · exact h.nodup_rules q
  · rw [parents_withoutRule hm]
    split
    · exact (h.nodup_parents s).erase p
    · exact h.nodup_parents s

lemma moveStart (h : g.WellFormed) {i : Nat} (hi : i < g.symbols.length)
    (ht : g.isTerminal i = false) : ({ g with start := i } : Grammar α).WellFormed :=
  ⟨h.bits_le, h.length_le, hi, ht, h.rules_terminal, h.rule_ne_nil, h.member_lt, h.mem_parents,
    h.nodup_rules, h.nodup_parents⟩

end WellFormed

section Tag

variable {i : Nat} {tag : α}

lemma getElem?_withTag (j : Nat) : (g.withTag i tag).symbols[j]? =
    (fun s => if i = j then { s with tag := some tag } else s) <$> g.symbols[j]? := by
  simp only [withTag, List.getElem?_modify]

@[simp] lemma length_withTag : (g.withTag i tag).symbols.length = g.symbols.length := by
  simp [withTag]

@[simp] lemma isTerminal_withTag (j : Nat) :
    (g.withTag i tag).isTerminal j = g.isTerminal j := by
  simp only [isTerminal, getElem?_withTag]
  cases g.symbols[j]? <;> simp
  split <;> rfl

@[simp] lemma rules_withTag (j : Nat) : (g.withTag i tag).rules j = g.rules j := by
  simp only [rules, getElem?_withTag]
  cases g.symbols[j]? <;> simp
  split <;> rfl

@[simp] lemma parents_withTag (j : Nat) : (g.withTag i tag).parents j = g.parents j := by
  simp only [parents, getElem?_withTag]
  cases g.symbols[j]? <;> simp
  split <;> rfl

lemma WellFormed.withTag (h : g.WellFormed) : (g.withTag i tag).WellFormed where
  bits_le := h.bits_le
  length_le := by rw [length_withTag]; exact h.length_le
  start_lt := by rw [length_withTag]; exact h.start_lt
  start_nonterminal := by rw [isTerminal_withTag]; exact h.start_nonterminal
  rules_terminal j := by simpa using h.rules_terminal j
  rule_ne_nil p := by simpa using h.rule_ne_nil p
  member_lt p := by simpa using h.member_lt p
  mem_parents s p := by simpa using h.mem_parents s p
  nodup_rules p := by simpa using h.nodup_rules p
  nodup_parents s := by simpa using h.nodup_parents s

end Tag

variable [DecidableEq α]

lemma declare_eq_ok {name : α} {terminal : Bool} {x : Nat × Grammar α} :
    g.declare name terminal = .ok x ↔ g.index? name = none ∧
      g.symbols.length < g.width.max ∧ x = g.append (.user name) terminal := by
  unfold declare
  split
  · next h => simp [Option.isSome_iff_ne_none.1 h]
  · next h =>
    split
    · next h' => simp [Nat.not_lt.2 h']
    · next h' =>
      have h : g.index? name = none := by simpa using h
      simp [h, Nat.lt_of_not_le h', eq_comm]

lemma WellFormed.change (h : g.WellFormed) (hc : g.Change g') : g'.WellFormed := by
  cases hc with
  | declare hd =>
    obtain ⟨-, hlt, hx⟩ := declare_eq_ok.1 hd
    obtain ⟨-, rfl⟩ := Prod.mk.inj hx
    exact h.append rfl hlt rfl rfl
  | synthetic hs => exact h.makes (makes_of_pushSynthetic hs).1
  | newStart hs => exact h.makes (makes_of_pushStart hs).1
  | insert hi => exact h.insertRule hi
  | remove hr => exact h.removeRule hr
  | moveStart hi ht => exact h.moveStart hi ht
  | tag => exact h.withTag

lemma WellFormed.changes (h : g.WellFormed) (hc : g.Changes g') : g'.WellFormed := by
  induction hc with
  | refl => exact h
  | tail _ hc ih => exact ih.change hc

lemma Change.width (h : g.Change g') : g'.width = g.width := by
  cases h with
  | declare hd =>
    obtain ⟨-, -, hx⟩ := declare_eq_ok.1 hd
    rw [(Prod.mk.inj hx).2]
  | synthetic hs => exact (makes_of_pushSynthetic hs).1.width
  | newStart hs => exact (makes_of_pushStart hs).1.width
  | insert hi =>
    obtain ⟨-, -, -, -, rfl⟩ := insertRule_eq_ok.1 hi
    rfl
  | remove hr =>
    obtain ⟨-, -, rfl⟩ := removeRule_eq_ok.1 hr
    rfl
  | moveStart => rfl
  | tag => rfl

lemma Changes.width (h : g.Changes g') : g'.width = g.width := by
  induction h with
  | refl => rfl
  | tail _ hc ih => exact hc.width.trans ih

end Chomsky.Grammar
