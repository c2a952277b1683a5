import Mathlib.Data.List.Perm.Subperm
import Chomsky.Normalize
import Chomsky.Proofs.Grammar.WellFormed
import Chomsky.Theory.Derivation

/-!
The walk along unit rules finds exactly the non-terminals that a symbol reaches through one or
more of them, each of them once. The invariant says that what was found and is no more to visit has
all its unit rules explored.
-/

namespace Chomsky.Grammar

open Relation

variable {α : Type} {g : Grammar α} {p q : Nat} {r : List Nat}

lemma isUnitRule_iff :
    g.isUnitRule r = true ↔ ∃ m, r = [m] ∧ g.isTerminal m = false := by
  unfold isUnitRule
  split
  · simp
  · next h => simpa using fun m hm => absurd hm (h m)

lemma mem_unitMembers : q ∈ g.unitMembers p ↔ g.UnitStep p q := by
  simp only [unitMembers, List.mem_flatten, List.mem_filter, isUnitRule_iff, UnitStep]
  constructor
  · rintro ⟨_, ⟨hr, m, rfl, hm⟩, hq⟩
    obtain rfl := List.mem_singleton.1 hq
    exact ⟨hr, hm⟩
  · rintro ⟨hr, hq⟩
    exact ⟨[q], ⟨hr, q, rfl, hq⟩, List.mem_singleton_self q⟩

lemma UnitStep.lt (hw : g.WellFormed) (h : g.UnitStep p q) : q < g.symbols.length :=
  hw.member_lt p [q] h.1 q (List.mem_singleton_self q)

lemma nodup_unitMembers (hw : g.WellFormed) (p : Nat) : (g.unitMembers p).Nodup := by
  have hsub : ∀ rs : List (List Nat), rs.Nodup → (rs.filter g.isUnitRule).flatten.Nodup := by
    intro rs hrs
    induction rs with
    | nil => exact List.nodup_nil
    | cons r rs ih =>
      obtain ⟨hr, hnodup⟩ := List.nodup_cons.1 hrs
      by_cases hu : g.isUnitRule r = true
      · obtain ⟨m, rfl, -⟩ := isUnitRule_iff.1 hu
        rw [List.filter_cons_of_pos hu, List.flatten_cons, List.singleton_append,
          List.nodup_cons]
        refine ⟨fun hm => hr ?_, ih hnodup⟩
        obtain ⟨r', hr', hm⟩ := List.mem_flatten.1 hm
        obtain ⟨hr', hu'⟩ := List.mem_filter.1 hr'
        obtain ⟨m', rfl, -⟩ := isUnitRule_iff.1 hu'
        obtain rfl := List.mem_singleton.1 hm
        exact hr'
      · rw [List.filter_cons_of_neg hu]
        exact ih hnodup
  exact hsub _ (hw.nodup_rules p)

/-- A walk from `p` that has found `found` and still visits `todo`. -/
structure Walk (g : Grammar α) (p : Nat) (found todo : List Nat) : Prop where
  nodup : found.Nodup
  lt : ∀ q ∈ found, q < g.symbols.length
  sound : ∀ q ∈ found, TransGen g.UnitStep p q
  pending : ∀ q ∈ todo, q = p ∨ q ∈ found
  closed : ∀ q, q = p ∨ q ∈ found → q ∉ todo → ∀ r, g.UnitStep q r → r ∈ found

lemma Walk.start (g : Grammar α) (p : Nat) : g.Walk p [] [p] where
  nodup := List.nodup_nil
  lt := nofun
  sound := nofun
  pending _ hq := .inl (List.mem_singleton.1 hq)
  closed _ hq hn := absurd (List.mem_singleton.2 (hq.resolve_right List.not_mem_nil)) hn

lemma Walk.step (hw : g.WellFormed) {i : Nat} {found todo : List Nat}
    (h : g.Walk p found (i :: todo)) :
    g.Walk p (found ++ (g.unitMembers i).filter (· ∉ found))
      (((g.unitMembers i).filter (· ∉ found)).reverse ++ todo) := by
  have hnew : ∀ q, q ∈ (g.unitMembers i).filter (· ∉ found) ↔ g.UnitStep i q ∧ q ∉ found := by
    simp [mem_unitMembers]
  have hi := h.pending i List.mem_cons_self
  refine ⟨?_, fun q hq => ?_, fun q hq => ?_, fun q hq => ?_, fun q hq hn r hr => ?_⟩
  · refine List.nodup_append.2 ⟨h.nodup, (nodup_unitMembers hw i).filter _, ?_⟩
    rintro a ha _ hb rfl
    exact ((hnew a).1 hb).2 ha
  · rcases List.mem_append.1 hq with hq | hq
    · exact h.lt q hq
    · exact ((hnew q).1 hq).1.lt hw
  · rcases List.mem_append.1 hq with hq | hq
    · exact h.sound q hq
    · obtain ⟨hs, -⟩ := (hnew q).1 hq
      rcases hi with rfl | hi
      · exact .single hs
      · exact (h.sound i hi).tail hs
  · rcases List.mem_append.1 hq with hq | hq
    · exact .inr (List.mem_append_right _ (List.mem_reverse.1 hq))
    · exact (h.pending q (List.mem_cons_of_mem i hq)).imp_right (List.mem_append_left _)
  · rw [List.mem_append, List.mem_reverse, not_or] at hn
    have hq : q = p ∨ q ∈ found :=
      hq.imp_right fun hq => (List.mem_append.1 hq).resolve_right hn.1
    by_cases hqi : q = i
    · subst hqi
      by_cases hrf : r ∈ found
      · exact List.mem_append_left _ hrf
      · exact List.mem_append_right _ ((hnew r).2 ⟨hr, hrf⟩)
    · refine List.mem_append_left _ (h.closed q hq ?_ r hr)
      exact fun hmem => (List.mem_cons.1 hmem).elim hqi hn.2

lemma Walk.length_le {found todo : List Nat} (h : g.Walk p found todo) :
    found.length ≤ g.symbols.length := by
  simpa using (h.nodup.subperm fun q hq => List.mem_range.2 (h.lt q hq)).length_le

/-- A symbol is visited once for each time it was found, so a step leaves less to do. -/
lemma Walk.step_measure (hw : g.WellFormed) {i n : Nat} {found todo : List Nat}
    (h : g.Walk p found (i :: todo))
    (hn : (i :: todo).length + (g.symbols.length - found.length) ≤ n + 1) :
    (((g.unitMembers i).filter (· ∉ found)).reverse ++ todo).length +
      (g.symbols.length - (found ++ (g.unitMembers i).filter (· ∉ found)).length) ≤ n := by
  have hle := (h.step hw).length_le
  rw [List.length_append] at hle ⊢
  rw [List.length_append, List.length_reverse]
  rw [List.length_cons] at hn
  omega

lemma Walk.run (hw : g.WellFormed) {n : Nat} {found todo : List Nat} (h : g.Walk p found todo)
    (hn : todo.length + (g.symbols.length - found.length) ≤ n) :
    g.Walk p (g.unitWalk n found todo) [] := by
  induction n generalizing found todo with
  | zero =>
    obtain rfl : todo = [] := List.length_eq_zero_iff.1 (by omega)
    exact h
  | succ n ih =>
    cases todo with
    | nil => exact h
    | cons i todo => exact ih (h.step hw) (h.step_measure hw hn)

lemma walk_unitTargets (hw : g.WellFormed) (p : Nat) : g.Walk p (g.unitTargets p) [] :=
  (Walk.start g p).run hw (by simp [Nat.add_comm])

lemma nodup_unitTargets (hw : g.WellFormed) (p : Nat) : (g.unitTargets p).Nodup :=
  (walk_unitTargets hw p).nodup

lemma mem_unitTargets (hw : g.WellFormed) : q ∈ g.unitTargets p ↔ TransGen g.UnitStep p q := by
  have h := walk_unitTargets hw p
  refine ⟨h.sound q, fun hq => ?_⟩
  induction hq with
  | single hs => exact h.closed p (.inl rfl) List.not_mem_nil _ hs
  | tail _ hs ih => exact h.closed _ (.inr ih) List.not_mem_nil _ hs

/-- A symbol with a target has a unit rule. -/
lemma exists_unitStep (hw : g.WellFormed) (h : g.unitTargets p ≠ []) : ∃ q, g.UnitStep p q := by
  obtain ⟨r, hr⟩ := List.exists_mem_of_ne_nil _ h
  obtain ⟨q, hq, -⟩ := TransGen.head'_iff.1 ((mem_unitTargets hw).1 hr)
  exact ⟨q, hq⟩

/-- A symbol takes over, besides its own, the proper rules of all it reaches. -/
lemma mem_inheritedRules (hw : g.WellFormed) :
    r ∈ g.properRules p ∨ r ∈ g.inheritedRules p ↔ g.ProperRule p r := by
  have hmem : ∀ q, r ∈ g.properRules q ↔ r ∈ g.rules q ∧ g.isUnitRule r = false := by
    simp [properRules]
  simp only [inheritedRules, List.mem_flatMap, mem_unitTargets hw, hmem, ProperRule]
  constructor
  · rintro (hr | ⟨q, hq, hr⟩)
    · exact ⟨p, .refl, hr⟩
    · exact ⟨q, hq.to_reflTransGen, hr⟩
  · rintro ⟨q, hq, hr⟩
    rcases reflTransGen_iff_eq_or_transGen.1 hq with rfl | hq
    · exact .inl hr
    · exact .inr ⟨q, hq, hr⟩

/-! ### Symbols without unit rules or with nothing else -/

lemma isUnitRule_of_unitFree_at (h : ∀ m, [m] ∈ g.rules p → g.isTerminal m = true)
    (hr : r ∈ g.rules p) : g.isUnitRule r = false := by
  by_contra hu
  obtain ⟨m, rfl, hm⟩ := isUnitRule_iff.1 (by simpa using hu)
  simp [h m hr] at hm

/-- The proper rules of a symbol without unit rules are its rules. -/
lemma properRule_iff_of_unitFree_at (h : ∀ m, [m] ∈ g.rules p → g.isTerminal m = true) :
    g.ProperRule p r ↔ r ∈ g.rules p := by
  constructor
  · rintro ⟨q, hq, hr, -⟩
    rcases ReflTransGen.cases_head hq with rfl | ⟨m, hs, -⟩
    · exact hr
    · have := h m hs.1
      simp [hs.2] at this
  · exact fun hr => ⟨p, .refl, hr, isUnitRule_of_unitFree_at h hr⟩

/-- A symbol with one unit rule and no other takes over what that rule leads to. -/
lemma properRule_iff_of_unit (hp : g.rules p = [[q]]) (hq : g.isTerminal q = false) :
    g.ProperRule p r ↔ g.ProperRule q r := by
  have hstep : g.UnitStep p q := ⟨by rw [hp]; exact List.mem_singleton_self [q], hq⟩
  constructor
  · rintro ⟨s, hs, hr, hunit⟩
    rcases ReflTransGen.cases_head hs with rfl | ⟨m, hm, hs⟩
    · rw [hp, List.mem_singleton] at hr
      simp [hr, isUnitRule, hq] at hunit
    · have hmq := hm.1
      rw [hp, List.mem_singleton, List.singleton_inj] at hmq
      exact ⟨s, hmq ▸ hs, hr, hunit⟩
  · rintro ⟨s, hs, hr, hunit⟩
    exact ⟨s, .head hstep hs, hr, hunit⟩

end Chomsky.Grammar
