import Chomsky.Proofs.Grammar.Identity
import Chomsky.Proofs.Normalize.Steps
import Chomsky.Proofs.ParseTree

/-!
What isolating the start symbol does: it may put a new start above the old one, and the trees of
the new start are those of the old one with a node more.
-/

namespace Chomsky.Grammar

variable {α : Type} {g g' : Grammar α} {p : Nat}

/-- `g'` has one symbol more, its start, with the start of `g` as its only rule. -/
structure Crowns (g g' : Grammar α) : Prop where
  length : g'.symbols.length = g.symbols.length + 1
  start : g'.start = g.symbols.length
  isTerminal : ∀ i, g'.isTerminal i = g.isTerminal i
  rules : ∀ i, g'.rules i = if i = g.symbols.length then [[g.start]] else g.rules i

lemma isolateStart_spec [DecidableEq α] (h : g.isolateStart.result = .ok g') :
    g.startOccurs = false ∧ g' = g ∨ g.startOccurs = true ∧ g.Crowns g' ∧
      g'.ids = g.ids ++ [.start g.nextStart] ∧ g'.nextStart = g.nextStart + 1 := by
  refine (isolateStart_eq_ok.1 h).imp_right fun ⟨hs, n, g₁, g₂, hp, hi, hg'⟩ => ?_
  subst hg'
  obtain ⟨hm, ht, -⟩ := makes_of_pushStart hp
  obtain ⟨hlt, -, -, -, rfl⟩ := insertRule_eq_ok.1 hi
  obtain rfl := hm.index
  refine ⟨hs, ⟨length_withRule.trans hm.length, rfl,
    fun i => isTerminal_withRule.trans (hm.isTerminal i), fun i => ?_⟩,
    ids_withRule.trans hm.ids, ht⟩
  refine (rules_withRule hlt i).trans ?_
  rw [hm.rules, hm.rules, rules_of_le (Nat.le_refl _)]
  rfl

namespace Crowns

lemma rules_of_lt (h : g.Crowns g') (hp : p < g.symbols.length) : g'.rules p = g.rules p := by
  rw [h.rules, if_neg (Nat.ne_of_lt hp)]

lemma rules_start (h : g.Crowns g') : g'.rules g'.start = [[g.start]] := by
  rw [h.rules, if_pos h.start]

lemma treesOf_of_lt (h : g.Crowns g') (hw : g.WellFormed) (hp : p < g.symbols.length)
    (places : List (Nat × Nat)) : g'.treesOf p places = g.treesOf p places :=
  treesOf_congr (P := (· < g.symbols.length)) h.isTerminal
    (fun q hq r => by rw [h.rules_of_lt hq]) (fun q _ r hr => hw.member_lt q r hr) hp places

/-- The new start occurs in no rule. -/
lemma not_occurs_start (h : g.Crowns g') (hw : g.WellFormed) : ¬g'.Occurs g'.start := by
  rintro ⟨p, r, hr, hm⟩
  rw [h.start] at hm
  rw [h.rules] at hr
  split at hr
  · obtain rfl := List.mem_singleton.1 hr
    exact absurd hw.start_lt (by simp [← List.mem_singleton.1 hm])
  · exact absurd (hw.member_lt p r hr _ hm) (Nat.lt_irrefl _)

/-- A tree of the new start is a node above a tree of the old one. -/
lemma treesOf_start (h : g.Crowns g') (hw : g.WellFormed) (places : List (Nat × Nat)) :
    g'.treesOf g'.start places =
      (fun t => .node g'.start [t]) '' g.treesOf g.start places := by
  rw [← h.treesOf_of_lt hw hw.start_lt]
  ext t
  constructor
  · rintro ⟨hs, ht, hpl⟩
    cases t with
    | leaf s p =>
      have hterm : g'.isTerminal s = true := ht
      rw [h.isTerminal, show s = g.symbols.length from hs.trans h.start,
        isTerminal_of_le (Nat.le_refl _)] at hterm
      cases hterm
    | node s ts =>
      obtain rfl : s = g'.start := hs
      obtain ⟨hr, hts⟩ := grows_node.1 ht
      rw [h.rules_start, List.mem_singleton] at hr
      obtain ⟨u, rfl, hu⟩ := List.map_eq_singleton_iff.1 hr
      refine ⟨u, ⟨hu, hts u (List.mem_singleton_self u), ?_⟩, rfl⟩
      rw [← hpl, Tree.places_node, List.flatMap_singleton]
  · rintro ⟨u, ⟨hu, hfu, hpl⟩, rfl⟩
    refine ⟨rfl, grows_node.2 ⟨?_, fun t ht => List.mem_singleton.1 ht ▸ hfu⟩, ?_⟩
    · have : [g.start] ∈ g'.rules g'.start := by rw [h.rules_start]; exact List.mem_singleton_self _
      rw [← hu] at this
      exact this
    · rw [Tree.places_node, List.flatMap_singleton, hpl]

end Crowns

/-- Afterwards the start occurs in no rule. -/
lemma isolateStart_not_occurs [DecidableEq α] (hw : g.WellFormed)
    (h : g.isolateStart.result = .ok g') : ¬g'.Occurs g'.start := by
  obtain ⟨hs, rfl⟩ | ⟨-, hc, -⟩ := isolateStart_spec h
  · rw [← hw.startOccurs_iff, hs]
    exact Bool.false_ne_true
  · exact hc.not_occurs_start hw

end Chomsky.Grammar
