import Mathlib.Data.List.Cycle
import Chomsky.Proofs.Grammar.Reachable
import Chomsky.Proofs.Normalize.UnitClosure
import Chomsky.Theory.Normalization

/-!
The loop along unit rules comes to an end with what the walk finds. One turn of it is one step of
the walk, because a symbol has each of its unit rules once; so it makes one turn for each symbol
found and one for where it started.
-/

namespace Chomsky

open Relation

/-! ### Turns of the loop -/

/-- What comes in one after the other is seen in that order, and lies the other way round on the
stack. -/
lemma Visit.foldl_see {ms : List Nat} (h : ms.Nodup) (v : Visit) :
    ms.foldl Visit.see v =
      ⟨v.seen ++ ms.filter (· ∉ v.seen), (ms.filter (· ∉ v.seen)).reverse ++ v.stack⟩ := by
  induction ms generalizing v with
  | nil => simp
  | cons m ms ih =>
    obtain ⟨hm, hnodup⟩ := List.nodup_cons.1 h
    rw [List.foldl_cons, ih hnodup, Visit.see]
    by_cases hseen : m ∈ v.seen
    · simp [hseen]
    · -- `m` does not come again, so that it is seen now changes nothing for what follows it
      have hrest : ms.filter (· ∉ v.seen ++ [m]) = ms.filter (· ∉ v.seen) := by
        refine List.filter_congr fun x hx => ?_
        have hne : x ≠ m := fun hxm => hm (hxm ▸ hx)
        simp [hne]
      rw [if_neg hseen, OrderedSet.insert, if_neg hseen]
      simp only [hrest]
      simp [hseen]

namespace Grammar

variable {α : Type} {g : Grammar α} {p q : Nat}

lemma foldl_followRule (rs : List (List Nat)) (v : Visit) :
    rs.foldl g.followRule v = (rs.filter g.isUnitRule).flatten.foldl Visit.see v := by
  induction rs generalizing v with
  | nil => rfl
  | cons r rs ih =>
    rw [List.foldl_cons, ih]
    by_cases hu : g.isUnitRule r = true
    · obtain ⟨m, rfl, hm⟩ := isUnitRule_iff.1 hu
      simp [hu, followRule, hm]
    · have hstay : g.followRule v r = v := by
        unfold followRule
        split
        · next m => exact if_pos (by simpa [isUnitRule] using hu)
        · rfl
      rw [hstay, List.filter_cons_of_neg hu]

/-- A turn of the loop finds what a step of the walk finds. -/
lemma followRules_eq (hw : g.WellFormed) (seen stack : List Nat) (i : Nat) :
    g.followRules ⟨seen, stack⟩ i =
      ⟨seen ++ (g.unitMembers i).filter (· ∉ seen),
        ((g.unitMembers i).filter (· ∉ seen)).reverse ++ stack⟩ := by
  rw [followRules, foldl_followRule]
  exact Visit.foldl_see (nodup_unitMembers hw i) _

lemma EndsIn.unique {v : Visit} {n n' : Nat} {found found' : List Nat} (h : g.EndsIn v n found)
    (h' : g.EndsIn v n' found') : n = n' ∧ found = found' := by
  induction h generalizing n' with
  | done =>
    cases h'
    exact ⟨rfl, rfl⟩
  | turn _ ih =>
    cases h' with
    | turn rest' =>
      obtain ⟨rfl, rfl⟩ := ih rest'
      exact ⟨rfl, rfl⟩

/-- From wherever the walk stands, the loop makes a turn for each symbol still to visit and each
that is found later. -/
lemma Walk.endsIn (hw : g.WellFormed) {n : Nat} {found todo : List Nat} (h : g.Walk p found todo)
    (hn : todo.length + (g.symbols.length - found.length) ≤ n) :
    ∃ later, g.unitWalk n found todo = found ++ later ∧
      g.EndsIn ⟨found, todo⟩ (todo.length + later.length) (found ++ later) := by
  -- the bound of the walk carries the induction, and is none for the loop
  induction n generalizing found todo with
  | zero =>
    obtain rfl : todo = [] := List.length_eq_zero_iff.1 (by omega)
    exact ⟨[], by simp [unitWalk], by simpa using EndsIn.done⟩
  | succ n ih =>
    cases todo with
    | nil => exact ⟨[], by simp [unitWalk], by simpa using EndsIn.done⟩
    | cons i todo =>
      obtain ⟨later, hwalk, hends⟩ := ih (h.step hw) (h.step_measure hw hn)
      rw [List.append_assoc] at hwalk hends
      refine ⟨_, hwalk, ?_⟩
      have hturns : (((g.unitMembers i).filter (· ∉ found)).reverse ++ todo).length +
          later.length + 1 = (i :: todo).length +
            ((g.unitMembers i).filter (· ∉ found) ++ later).length := by
        simp only [List.length_append, List.length_reverse, List.length_cons]
        omega
      rw [← hturns]
      refine .turn ?_
      rw [followRules_eq hw]
      exact hends

lemma endsIn_unitTargets (hw : g.WellFormed) (p : Nat) :
    g.EndsIn (Visit.start p) ((g.unitTargets p).length + 1) (g.unitTargets p) := by
  obtain ⟨later, hwalk, hends⟩ :=
    (Walk.start g p).endsIn hw (n := g.symbols.length + 1) (by simp [Nat.add_comm])
  rw [List.nil_append] at hwalk hends
  rw [show g.unitTargets p = later from hwalk, Nat.add_comm]
  exact hends

/-! ### Chains of unit rules -/

lemma transGen_iff_isChain {r : Nat → Nat → Prop} :
    TransGen r p q ↔ ∃ between, List.IsChain r (p :: (between ++ [q])) := by
  constructor
  · intro h
    induction h using TransGen.head_induction_on with
    | single h => exact ⟨[], by simpa using h⟩
    | head h _ ih =>
      obtain ⟨between, hchain⟩ := ih
      exact ⟨_ :: between, .cons_cons h hchain⟩
  · rintro ⟨between, hchain⟩
    induction between generalizing p with
    | nil => exact .single (by simpa using hchain)
    | cons m between ih =>
      obtain ⟨h, hchain⟩ := List.isChain_cons_cons.1 hchain
      exact .head h (ih hchain)

/-- A chain back to where it began is a cycle, and goes through all that the cycle goes through. -/
lemma transGen_self_iff_cycle {r : Nat → Nat → Prop} :
    TransGen r p p ↔ ∃ c : Cycle Nat, c.Chain r ∧ p ∈ c := by
  rw [transGen_iff_isChain]
  constructor
  · rintro ⟨between, hchain⟩
    exact ⟨(p :: between : List Nat), hchain, List.mem_cons_self⟩
  · rintro ⟨c, hchain, hp⟩
    induction c using Quotient.inductionOn' with
    | h l =>
      obtain ⟨before, after, rfl⟩ := List.append_of_mem (Cycle.mem_coe_iff.1 hp)
      have hrotate : before ++ p :: after ~r p :: (after ++ before) := List.isRotated_append
      change Cycle.Chain r (before ++ p :: after : List Nat) at hchain
      rw [Cycle.coe_eq_coe.2 hrotate] at hchain
      exact ⟨after ++ before, by simpa using hchain⟩

/-! ### The loop in full -/

/-- **The loop along unit rules ends, and finds exactly what unit rules lead to.** It makes one
turn for each symbol found and one for where it started, whatever cycles there are, and nothing
bounds the turns beforehand. Found are, each once, the non-terminals at the end of a chain of one
or more unit rules; where the loop started is among them if it lies on a cycle of unit rules. -/
theorem unitTargets_exact [DecidableEq α] (hg : g.Reachable) (p : Nat) :
    (g.EndsIn (Visit.start p) ((g.unitTargets p).length + 1) (g.unitTargets p) ∧
        (g.unitTargets p).length ≤ g.symbols.length) ∧
      (∀ n found, g.EndsIn (Visit.start p) n found →
        n = (g.unitTargets p).length + 1 ∧ found = g.unitTargets p) ∧
      (g.unitTargets p).Nodup ∧
      (∀ q, q ∈ g.unitTargets p ↔
        ∃ between, List.IsChain g.UnitStep (p :: (between ++ [q]))) ∧
      (p ∈ g.unitTargets p ↔ ∃ c : Cycle Nat, c.Chain g.UnitStep ∧ p ∈ c) := by
  have hw := hg.wellFormed
  have hends := endsIn_unitTargets hw p
  refine ⟨⟨hends, (walk_unitTargets hw p).length_le⟩, fun n found h => h.unique hends,
    nodup_unitTargets hw p, fun q => ?_, ?_⟩
  · rw [mem_unitTargets hw, transGen_iff_isChain]
  · rw [mem_unitTargets hw, transGen_self_iff_cycle]

/-- `S → A` and `A → S | a`, of which each is all that the other has as unit rules. -/
def circular : Grammar String where
  width := .w8
  symbols := [
    { id := .user "S", isTerminal := false, rules := [[1]], parents := [1] },
    { id := .user "A", isTerminal := false, rules := [[0], [2]], parents := [0] },
    { id := .user "a", isTerminal := true, parents := [1] }]
  start := 0

lemma circular_reachable : circular.Reachable :=
  ⟨.w8, "S", _, [.declare "A" false, .declare "a" true, .addRule "S" ["A"], .addRule "A" ["S"],
    .addRule "A" ["a"]], rfl, rfl⟩

/-- The loop makes three turns for the two symbols on the cycle. -/
theorem unitTargets_exact_circular : circular.Reachable ∧
    circular.EndsIn (Visit.start 0) 3 [1, 0] ∧
      (∀ n found, circular.EndsIn (Visit.start 0) n found → n = 3 ∧ found = [1, 0]) ∧
      (2 ∈ [1, 0] ↔ ∃ between, List.IsChain circular.UnitStep (0 :: (between ++ [2]))) ∧
      ∃ c : Cycle Nat, c.Chain circular.UnitStep ∧ 0 ∈ c := by
  obtain ⟨⟨hends, -⟩, hunique, -, hchains, hcycle⟩ := unitTargets_exact circular_reachable 0
  exact ⟨circular_reachable, hends, hunique, hchains 2, hcycle.1 (by decide)⟩

end Grammar

end Chomsky
