import Mathlib.Order.WellFounded
import Mathlib.Tactic.Common
import Chomsky.Theory.Derivation

/-!
Expanding lists of symbols in which some are fresh. Where each fresh symbol has one rule and all of
them stand for lists, replacing fresh members by the members of their rules comes to an end, and it
comes to one and the same list in whatever order it is done.
-/

namespace Chomsky

/-- What all symbols stand for: a fresh one for what the members of its only rule stand for, any
other for itself. No fresh symbol is all that is left of a fresh one. -/
structure Unfolds (fresh : Nat → Prop) (rules : Nat → List (List Nat)) (h : Nat → List Nat) :
    Prop where
  keep : ∀ i, ¬fresh i → h i = [i]
  ne_nil : ∀ i, h i ≠ []
  body : ∀ i, fresh i → ∃ b, rules i = [b] ∧ h i = b.flatMap h ∧ ∀ m, b = [m] → ¬fresh m

/-- The rules of the fresh symbols alone. -/
def freshRules (fresh : Nat → Prop) (rules : Nat → List (List Nat)) : RuleSet :=
  fun i r => fresh i ∧ r ∈ rules i

namespace Unfolds

variable {fresh : Nat → Prop} {rules : Nat → List (List Nat)} {h : Nat → List Nat}
  {ms u b : List Nat} {i : Nat}

open Classical in
/-- A bound on the replacements that a fresh symbol needs. Each of them makes a member fewer fresh
or the list longer, and the list is never longer than what it stands for. -/
noncomputable def weight (fresh : Nat → Prop) (h : Nat → List Nat) (i : Nat) : Nat :=
  if fresh i then 2 * (h i).length - 1 else 0

noncomputable def weights (fresh : Nat → Prop) (h : Nat → List Nat) : List Nat → Nat
  | [] => 0
  | m :: ms => weight fresh h m + weights fresh h ms

lemma weight_of_fresh (hi : fresh i) : weight fresh h i = 2 * (h i).length - 1 := if_pos hi

lemma weight_of_not_fresh (hi : ¬fresh i) : weight fresh h i = 0 := if_neg hi

lemma weights_append (us vs : List Nat) :
    weights fresh h (us ++ vs) = weights fresh h us + weights fresh h vs := by
  induction us with
  | nil => simp [weights]
  | cons m us ih => rw [List.cons_append, weights, weights, ih, Nat.add_assoc]

variable (H : Unfolds fresh rules h)

include H

lemma weights_add_length_le (ms : List Nat) :
    weights fresh h ms + ms.length ≤ 2 * (ms.flatMap h).length := by
  induction ms with
  | nil => simp [weights]
  | cons m ms ih =>
    have hpos : 0 < (h m).length := List.length_pos_iff.2 (H.ne_nil m)
    have hle : weight fresh h m ≤ 2 * (h m).length - 1 := by
      by_cases hm : fresh m
      · rw [weight_of_fresh hm]
      · rw [weight_of_not_fresh hm]
        omega
    rw [weights, List.flatMap_cons, List.length_append, List.length_cons]
    omega

/-- The members of its rule together weigh less than a fresh symbol. -/
lemma weights_lt (hi : fresh i) (hb : b ∈ rules i) : weights fresh h b < weight fresh h i := by
  obtain ⟨b', hb', hbody, hsingle⟩ := H.body i hi
  rw [hb', List.mem_singleton] at hb
  subst hb
  have hle := H.weights_add_length_le b
  have hpos : 0 < (h i).length := List.length_pos_iff.2 (H.ne_nil i)
  rw [weight_of_fresh hi]
  rw [← hbody] at hle
  match b with
  | [] => simp [hbody] at hpos
  | [t] =>
    have ht : weights fresh h [t] = 0 := by simp [weights, weight_of_not_fresh (hsingle t rfl)]
    omega
  | _ :: _ :: _ =>
    rw [List.length_cons, List.length_cons] at hle
    omega

/-- **Replacing fresh members ends.** -/
theorem wellFounded : WellFounded fun v u => (freshRules fresh rules).Produces u v := by
  refine Subrelation.wf ?_ (InvImage.wf (weights fresh h) Nat.lt_wfRel.wf)
  rintro _ _ ⟨before, after, hi, hb⟩
  have hlt := H.weights_lt hi hb
  change weights fresh h _ < weights fresh h _
  rw [weights_append, weights_append, weights_append, weights]
  omega

/-- Every list can be expanded to what it stands for. -/
lemma expands (ms : List Nat) : Expands fresh rules ms (ms.flatMap h) := by
  match ms with
  | [] => exact .nil
  | m :: ms =>
    rw [List.flatMap_cons]
    by_cases hm : fresh m
    · obtain ⟨b, hb, hbody, -⟩ := H.body m hm
      have hbm : b ∈ rules m := hb ▸ List.mem_singleton_self b
      have := H.weights_lt hm hbm
      rw [hbody]
      exact .unfold hm hbm (expands b) (expands ms)
    · rw [H.keep m hm]
      exact .keep hm (expands ms)
termination_by (weights fresh h ms, ms.length)
decreasing_by
  all_goals
    rw [weights]
    simp_wf
    omega

lemma eq_of_expands (hu : Expands fresh rules ms u) : u = ms.flatMap h := by
  induction hu with
  | nil => rfl
  | keep hm _ ih => rw [List.flatMap_cons, H.keep _ hm, ih, List.singleton_append]
  | @unfold m r ms u v hm hr _ _ ih₁ ih₂ =>
    obtain ⟨b, hb, hbody, -⟩ := H.body m hm
    rw [hb, List.mem_singleton] at hr
    subst hr
    rw [List.flatMap_cons, hbody, ih₁, ih₂]

/-- **A list has one expansion**, which is what it stands for. -/
theorem expands_iff : Expands fresh rules ms u ↔ u = ms.flatMap h :=
  ⟨H.eq_of_expands, fun hu => hu ▸ H.expands ms⟩

end Unfolds

end Chomsky
