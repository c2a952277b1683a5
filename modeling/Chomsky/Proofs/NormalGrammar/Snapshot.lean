import Mathlib.Data.List.Nodup
import Chomsky.NormalGrammar.Snapshot
import Chomsky.Proofs.Grammar.Reachable
import Chomsky.Proofs.NormalGrammar.WellFormed

/-!
The snapshot of a well-formed grammar says the same as the grammar: it has the same symbols with
the same rules in the same order, and does not contradict itself.
-/

namespace Chomsky.Grammar

variable {α : Type} {g : Grammar α} {c : NormalGrammar α} {r : List Nat}

lemma normalRule_eq_ok {rule : NormalRule} : normalRule r = .ok rule ↔ rule.members = r := by
  unfold normalRule
  split
  · cases rule <;> simp [NormalRule.members, eq_comm]
  · cases rule <;> simp [NormalRule.members, eq_comm]
  · next h₁ h₂ =>
    cases rule with
    | terminal t => simpa [NormalRule.members] using fun h => h₁ t h.symm
    | pair l r => simpa [NormalRule.members] using fun h => h₂ l r h.symm

lemma length_tagsFrom {start k : Nat} {xs : List (Nat × Symbol α)} {ts : List (Tag α)}
    (h : tagsFrom start k xs = .ok ts) : ts.length = xs.length := by
  fun_induction tagsFrom start k xs generalizing ts with
  | case1 => simp [← Except.ok.inj h]
  | case2 k s rest ih =>
    obtain ⟨us, hus, rfl⟩ := except_map_eq_ok.1 h
    simp [ih hus]
  | case3 k i s rest hi t ht ih =>
    obtain ⟨us, hus, rfl⟩ := except_map_eq_ok.1 h
    simp [ih hus]
  | case4 k i s rest hi ht hk ih =>
    obtain ⟨us, hus, rfl⟩ := except_map_eq_ok.1 h
    simp [ih hus]
  | case5 => cases h

/-- Symbols that get automatic tags. -/
def untagged (start : Nat) (x : Nat × Symbol α) : Bool := x.1 ≠ start && x.2.tag.isNone

/-- The tag of the symbol `x`, where `k` is the next automatic tag. -/
def tagAs (start k : Nat) (x : Nat × Symbol α) : Tag α :=
  if x.1 = start then .root
  else match x.2.tag with
    | some t => .user t
    | none => .auto k

/-- There is an automatic tag for each untagged symbol, in the order of the symbols. -/
lemma getElem?_tagsFrom {start k : Nat} {xs : List (Nat × Symbol α)} {ts : List (Tag α)}
    (h : tagsFrom start k xs = .ok ts) {i : Nat} {x : Nat × Symbol α} (hi : xs[i]? = some x) :
    ts[i]? = some (tagAs start (k + (xs.take i).countP (untagged start)) x) := by
  fun_induction tagsFrom start k xs generalizing ts i with
  | case1 => simp at hi
  | case2 k s rest ih =>
    obtain ⟨us, hus, rfl⟩ := except_map_eq_ok.1 h
    cases i with
    | zero =>
      obtain rfl : (start, s) = x := by simpa using hi
      simp [tagAs]
    | succ i => simpa [untagged] using ih hus (by simpa using hi)
  | case3 k j s rest hne t ht ih =>
    obtain ⟨us, hus, rfl⟩ := except_map_eq_ok.1 h
    cases i with
    | zero =>
      obtain rfl : (j, s) = x := by simpa using hi
      simp [tagAs, hne, ht]
    | succ i => simpa [untagged, ht] using ih hus (by simpa using hi)
  | case4 k j s rest hne ht hk ih =>
    obtain ⟨us, hus, rfl⟩ := except_map_eq_ok.1 h
    cases i with
    | zero =>
      obtain rfl : (j, s) = x := by simpa using hi
      simp [tagAs, hne, ht]
    | succ i =>
      have hcount : (((j, s) :: rest).take (i + 1)).countP (untagged start) =
          1 + (rest.take i).countP (untagged start) := by
        simp [untagged, hne, ht, Nat.add_comm]
      rw [hcount, ← Nat.add_assoc]
      exact ih hus (by simpa using hi)
  | case5 => cases h

lemma isRoot_tagAs {start k : Nat} {x : Nat × Symbol α} :
    (tagAs start k x).isRoot = decide (x.1 = start) := by
  unfold tagAs
  split
  · next h => simp [h, Tag.isRoot]
  · next h => split <;> simp [h, Tag.isRoot]

/-- The start symbol and no other has the root tag. -/
lemma isRoot_tagsFrom {start k : Nat} {xs : List (Nat × Symbol α)} {ts : List (Tag α)}
    (h : tagsFrom start k xs = .ok ts) {i j : Nat} {s : Symbol α} (hi : xs[i]? = some (j, s)) :
    ∃ t, ts[i]? = some t ∧ t.isRoot = decide (j = start) :=
  ⟨_, getElem?_tagsFrom h hi, isRoot_tagAs⟩

lemma snapshot_eq_ok : g.snapshot = .ok c ↔ g.isNormal = true ∧ ∃ tags terminals parents rules,
    g.tags = .ok tags ∧ g.terminalSet = .ok terminals ∧
      g.symbols.mapM g.parentSet = .ok parents ∧
      g.symbols.mapM (fun s => s.rules.mapM normalRule) = .ok rules ∧
      c = ⟨g.width, g.symbols.map (·.id), tags.toArray, terminals, rules.toArray, parents.toArray,
        g.start⟩ := by
  unfold snapshot
  cases g.isNormal with
  | false => simp
  | true =>
    simp only [if_true, except_bind_eq_ok, true_and]
    constructor
    · rintro ⟨tags, ht, terminals, hs, parents, hp, rules, hr, h⟩
      exact ⟨tags, terminals, parents, rules, ht, hs, hp, hr, (Except.ok.inj h).symm⟩
    · rintro ⟨tags, terminals, parents, rules, ht, hs, hp, hr, rfl⟩
      exact ⟨tags, ht, terminals, hs, parents, hp, rules, hr, rfl⟩

lemma width_of_snapshot (h : g.snapshot = .ok c) : c.width = g.width := by
  obtain ⟨-, tags, terminals, parents, rules, -, -, -, -, rfl⟩ := snapshot_eq_ok.1 h
  rfl

lemma ids_of_snapshot (h : g.snapshot = .ok c) : c.ids = g.symbols.map (·.id) := by
  obtain ⟨-, tags, terminals, parents, rules, -, -, -, -, rfl⟩ := snapshot_eq_ok.1 h
  rfl

/-- `c` has the symbols of `g` with their rules. -/
structure Mirrors (g : Grammar α) (c : NormalGrammar α) : Prop where
  size : c.tags.size = g.symbols.length
  start : c.start = g.start
  isTerminal : ∀ i, c.terminals.holds i = g.isTerminal i
  rules : ∀ p, (c.rulesAt p).map NormalRule.members = g.rules p

lemma terminalSet_eq_ok {s : BitSet} (h : g.terminalSet = .ok s) :
    s.Fits g.symbols.length ∧ ∀ i, s.holds i = g.isTerminal i := by
  obtain ⟨s', hs', hf, hh⟩ := (BitSet.fits_empty g.symbols.length).foldlM_insert
    ((List.range g.symbols.length).filter g.isTerminal) (fun i hi => by
      simpa using (List.mem_filter.1 hi).1)
  obtain rfl : s' = s := Except.ok.inj (hs'.symm.trans h)
  refine ⟨hf, fun i => ?_⟩
  rw [hh, BitSet.holds_empty, Bool.false_or, Bool.eq_iff_iff, decide_eq_true_eq, List.mem_filter,
    List.mem_range]
  exact and_iff_right_of_imp lt_of_isTerminal

lemma parentSet_eq_ok (hw : g.WellFormed) {i : Nat} {s : Symbol α} (hs : g.symbols[i]? = some s)
    {ps : BitSet} (h : g.parentSet s = .ok ps) :
    ps.Fits g.symbols.length ∧ ∀ p, ps.holds p = true ↔ p ∈ g.parents i := by
  obtain ⟨s', hs', hf, hh⟩ := (BitSet.fits_empty g.symbols.length).foldlM_insert
    s.parents (fun p hp => hw.parent_lt (by rwa [parents_eq hs]))
  obtain rfl : s' = ps := Except.ok.inj (hs'.symm.trans h)
  refine ⟨hf, fun p => ?_⟩
  rw [hh, BitSet.holds_empty, Bool.false_or, decide_eq_true_eq, parents_eq hs]

lemma rules_eq_of_mapM {rules : List (List NormalRule)}
    (h : g.symbols.mapM (fun s => s.rules.mapM normalRule) = .ok rules) (p : Nat) :
    ((rules[p]?).getD []).map NormalRule.members = g.rules p := by
  obtain ⟨hlen, hget⟩ := except_mapM_eq_ok h
  rcases Nat.lt_or_ge p g.symbols.length with hp | hp
  · obtain ⟨s, hs⟩ := exists_symbol hp
    obtain ⟨rs, hrs, hmap⟩ := hget p s hs
    obtain ⟨hlen', hget'⟩ := except_mapM_eq_ok hmap
    rw [hrs, rules_eq hs, Option.getD_some]
    refine List.ext_getElem? fun i => ?_
    rw [List.getElem?_map]
    cases hr : s.rules[i]? with
    | none =>
      rw [List.getElem?_eq_none (by rw [hlen']; exact List.getElem?_eq_none_iff.1 hr)]
      rfl
    | some r =>
      obtain ⟨rule, hrule, hok⟩ := hget' i r hr
      rw [hrule, Option.map_some, normalRule_eq_ok.1 hok]
  · rw [List.getElem?_eq_none (by omega), rules_of_le hp]
    rfl

lemma snapshot_mirrors (h : g.snapshot = .ok c) : g.Mirrors c := by
  obtain ⟨-, tags, terminals, parents, rules, ht, hs, -, hr, rfl⟩ := snapshot_eq_ok.1 h
  refine ⟨?_, rfl, (terminalSet_eq_ok hs).2, fun p => ?_⟩
  · simpa [indices] using length_tagsFrom ht
  · rw [NormalGrammar.rulesAt, List.getElem?_toArray]
    exact rules_eq_of_mapM hr p

namespace Mirrors

variable (hm : g.Mirrors c)

include hm

lemma mem_rules {p : Nat} {rule : NormalRule} :
    rule ∈ c.rulesAt p ↔ rule.members ∈ g.rules p := by
  have hinj : Function.Injective NormalRule.members := by
    rintro (_ | _) (_ | _) h <;> simp_all [NormalRule.members]
  rw [← hm.rules, List.mem_map_of_injective hinj]

lemma exists_rule {p m : Nat} : (∃ rule ∈ c.rulesAt p, m ∈ rule.members) ↔
    ∃ r ∈ g.rules p, m ∈ r := by
  simp only [← hm.rules, List.mem_map, exists_exists_and_eq_and]

lemma ruleSet : c.ruleSet = g.ruleSet := by
  ext p r
  rw [NormalGrammar.ruleSet_iff, Grammar.ruleSet, ← hm.rules, List.mem_map]

end Mirrors

lemma getElem?_zip_indices (hw : g.WellFormed) {i : Nat} {s : Symbol α}
    (hs : g.symbols[i]? = some s) : (g.indices.zip g.symbols)[i]? = some (i, s) := by
  rw [hw.indices]
  simp [List.getElem?_zip_eq_some, hs, List.getElem?_range (lt_of_getElem? hs)]

/-- **A snapshot does not contradict itself.** -/
theorem snapshot_wellFormed (hw : g.WellFormed) (h : g.snapshot = .ok c) : c.WellFormed := by
  have hm := snapshot_mirrors h
  obtain ⟨hn, tags, terminals, parents, rules, ht, hs, hp, hr, rfl⟩ := snapshot_eq_ok.1 h
  have hsize := hm.size
  have hrule : ∀ {p rule}, rule ∈ NormalGrammar.rulesAt _ p →
      g.isNormalRule rule.members = true := fun h => isNormal_iff.1 hn _ _ (hm.mem_rules.1 h)
  refine ⟨?_, ?_, ?_, fun i hi => ?_, fun p t ht => ?_, fun p l r hlr m hmem => ?_, fun p hp => ?_,
    fun p => ?_, ?_, ?_, fun i hi => ?_⟩
  · rw [hsize]
    exact hw.length_le
  · rw [hsize, List.size_toArray]
    exact (except_mapM_eq_ok hr).1
  · rw [hsize]
    exact (terminalSet_eq_ok hs).1
  · rw [hsize] at hi ⊢
    obtain ⟨s, hs⟩ := exists_symbol hi
    obtain ⟨ps, hps, hok⟩ := (except_mapM_eq_ok hp).2 i s hs
    obtain ⟨hf, hh⟩ := parentSet_eq_ok hw hs hok
    refine ⟨ps, by simpa using hps, hf, fun p => ?_⟩
    rw [hh, hw.mem_parents, hm.exists_rule]
  · rw [hm.isTerminal]
    simpa [NormalRule.members, isNormalRule] using hrule ht
  · rw [hsize, hm.isTerminal]
    have hlt := hw.member_lt p _ (hm.mem_rules.1 hlr) m hmem
    have hlr := hrule hlr
    simp only [NormalRule.members, isNormalRule, Bool.and_eq_true, Bool.not_eq_true'] at hlr
    refine ⟨hlt, ?_⟩
    rcases (by simpa using hmem : m = l ∨ m = r) with rfl | rfl
    · exact hlr.1
    · exact hlr.2
  · rw [hm.isTerminal] at hp
    exact List.map_eq_nil_iff.1 ((hm.rules p).trans (hw.rules_terminal p hp))
  · exact List.Nodup.of_map _ (hm.rules p ▸ hw.nodup_rules p)
  · rw [hsize]
    exact hw.start_lt
  · rw [hm.isTerminal]
    exact hw.start_nonterminal
  · rw [hsize] at hi
    obtain ⟨s, hs⟩ := exists_symbol hi
    obtain ⟨t, ht, hroot⟩ := isRoot_tagsFrom ht (getElem?_zip_indices hw hs)
    rw [NormalGrammar.isRoot, NormalGrammar.tag, List.getElem?_toArray, ht]
    exact congrArg Except.ok hroot

namespace Mirrors

lemma terminal_eq (hm : g.Mirrors c) (hc : c.WellFormed) :
    (c.isTerminal · = .ok true) = (g.isTerminal · = true) := by
  ext i
  rw [hc.isTerminal_eq_true, hm.isTerminal]

lemma derives_start_iff (hm : g.Mirrors c) (hc : c.WellFormed) {w : List Nat} :
    c.Derives c.start w ↔ g.Derives g.start w := by
  rw [NormalGrammar.Derives, Derives, hm.ruleSet, hm.start, hm.terminal_eq hc]

end Mirrors

/-- Normalisation ends in a well-formed grammar and its snapshot. -/
lemma normalize_mirrors [DecidableEq α] {g' : Grammar α} (hg : g.Reachable)
    (hn : g.normalize.result = .ok (g', c)) : g'.WellFormed ∧ c.WellFormed ∧ g'.Mirrors c := by
  obtain ⟨-, hs⟩ := normalize_eq_ok.1 hn
  have hw := hg.wellFormed.changes (normalize_changes hn)
  exact ⟨hw, snapshot_wellFormed hw hs, snapshot_mirrors hs⟩

end Chomsky.Grammar
