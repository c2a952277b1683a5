import Mathlib.Data.Set.Card
import Mathlib.Data.List.Nodup
import Chomsky.Proofs.Grammar.WellFormed
import Chomsky.Proofs.ParseTree

/-!
Foldings: a grammar in which runs of rule members have given way to new symbols. A new symbol has
one rule, and unfolding the new symbols everywhere gives back the rules there were. Unfolding
the nodes of new symbols in trees is then a bijection between the parse trees of both grammars.
-/

namespace Chomsky

/-! ### Unfolding trees -/

namespace Tree

mutual
/-- A tree with the children of every node from `n` on in the place of that node. -/
def unfold (n : Nat) : Tree → List Tree
  | leaf s p => [leaf s p]
  | node s ts => if s < n then [node s (unfoldAll n ts)] else unfoldAll n ts

def unfoldAll (n : Nat) : List Tree → List Tree
  | [] => []
  | t :: ts => unfold n t ++ unfoldAll n ts
end

lemma unfoldAll_eq (n : Nat) (ts : List Tree) : unfoldAll n ts = ts.flatMap (unfold n) := by
  induction ts with
  | nil => rfl
  | cons t ts ih => rw [unfoldAll, ih, List.flatMap_cons]

lemma unfold_leaf (n s p : Nat) : (leaf s p).unfold n = [leaf s p] := by rw [unfold]

lemma unfold_node_of_lt {n s : Nat} (h : s < n) (ts : List Tree) :
    (node s ts).unfold n = [node s (ts.flatMap (unfold n))] := by
  rw [unfold, if_pos h, unfoldAll_eq]

lemma unfold_node_of_le {n s : Nat} (h : n ≤ s) (ts : List Tree) :
    (node s ts).unfold n = ts.flatMap (unfold n) := by
  rw [unfold, if_neg (by omega), unfoldAll_eq]

end Tree

namespace Grammar

variable {α : Type}

/-- `h` unfolds the symbols that `g'` has and `g` has not, and leaves the others as they are. -/
structure Folding (g g' : Grammar α) (h : Nat → List Nat) : Prop where
  length_le : g.symbols.length ≤ g'.symbols.length
  start : g'.start = g.start
  isTerminal : ∀ i, g'.isTerminal i = g.isTerminal i
  old : ∀ i < g.symbols.length, h i = [i]
  ne_nil : ∀ i < g'.symbols.length, h i ≠ []
  lt : ∀ i < g'.symbols.length, ∀ m ∈ h i, m < g.symbols.length
  fresh : ∀ i, g.symbols.length ≤ i → i < g'.symbols.length →
    ∃ b, g'.rules i = [b] ∧ h i = b.flatMap h ∧ ∀ m, b = [m] → g.isTerminal m = true
  single : ∀ p < g.symbols.length, ∀ m, [m] ∈ g'.rules p ↔ [m] ∈ g.rules p
  rules : ∀ p < g.symbols.length, ((g'.rules p).map (·.flatMap h)).Perm (g.rules p)
  occurs : ∀ i < g.symbols.length, g.isTerminal i = false → g'.Occurs i → g.Occurs i

namespace Folding

variable {g g' g'' : Grammar α} {h : Nat → List Nat}

lemma refl (g : Grammar α) : g.Folding g (fun i => [i]) where
  length_le := Nat.le_refl _
  start := rfl
  isTerminal _ := rfl
  old _ _ := rfl
  ne_nil i _ := List.cons_ne_nil i []
  lt i hi m hm := by rw [List.mem_singleton.1 hm]; exact hi
  fresh _ h h' := absurd h' (Nat.not_lt.2 h)
  single _ _ _ := Iff.rfl
  rules p _ := by simp
  occurs _ _ _ := id

/-- Foldings compose. Symbols made by the first keep their one rule, up to new symbols. -/
lemma trans {h' : Nat → List Nat} (hF : g.Folding g' h) (hF' : g'.Folding g'' h') :
    g.Folding g'' (fun i => (h' i).flatMap h) := by
  have hle := hF.length_le
  have hle' := hF'.length_le
  have hcomp : ∀ r : List Nat, r.flatMap (fun i => (h' i).flatMap h) =
      (r.flatMap h').flatMap h := fun r => by rw [List.flatMap_assoc]
  refine ⟨by omega, hF'.start.trans hF.start, fun i => (hF'.isTerminal i).trans (hF.isTerminal i),
    fun i hi => ?_, fun i hi => ?_, fun i hi m hm => ?_, fun i hge hlt => ?_, fun p hp m => ?_,
    fun p hp => ?_, fun i hi ht ho => ?_⟩
  · simp [hF'.old i (by omega), hF.old i hi]
  · obtain ⟨x, hx⟩ := List.exists_mem_of_ne_nil _ (hF'.ne_nil i hi)
    obtain ⟨y, hy⟩ := List.exists_mem_of_ne_nil _ (hF.ne_nil x (hF'.lt i hi x hx))
    exact List.ne_nil_of_mem (List.mem_flatMap.2 ⟨x, hx, hy⟩)
  · obtain ⟨x, hx, hm⟩ := List.mem_flatMap.1 hm
    exact hF.lt x (hF'.lt i hi x hx) m hm
  · rcases Nat.lt_or_ge i g'.symbols.length with hi | hi
    · obtain ⟨b, hb, hbody, hsingle⟩ := hF.fresh i hge hi
      have hperm := hF'.rules i hi
      rw [hb, List.perm_singleton, List.map_eq_singleton_iff] at hperm
      obtain ⟨b', hb', rfl⟩ := hperm
      refine ⟨b', hb', ?_, fun m hm => ?_⟩
      · rw [hcomp, hF'.old i hi, List.flatMap_singleton, hbody]
      · -- a rule with one member was there before
        have hmem : [m] ∈ g'.rules i := (hF'.single i hi m).1 (by simp [hb', hm])
        rw [hb, List.mem_singleton] at hmem
        exact hsingle m hmem.symm
    · obtain ⟨b, hb, hbody, hsingle⟩ := hF'.fresh i hi hlt
      exact ⟨b, hb, by rw [hcomp, hbody], fun m hm => (hF.isTerminal m).symm.trans (hsingle m hm)⟩
  · exact (hF'.single p (by omega) m).trans (hF.single p hp m)
  · have h₁ := (hF'.rules p (by omega)).map (·.flatMap h)
    rw [List.map_map] at h₁
    have h₂ : ((·.flatMap h) ∘ (·.flatMap h') : List Nat → List Nat) =
        fun r => r.flatMap fun i => (h' i).flatMap h := funext fun r => (hcomp r).symm
    rw [h₂] at h₁
    exact h₁.trans (hF.rules p hp)
  · exact hF.occurs i hi ht (hF'.occurs i (by omega) ((hF.isTerminal i).trans ht) ho)

lemma flatMap_old {h : Nat → List Nat} (hw : g.WellFormed)
    (hold : ∀ i < g.symbols.length, h i = [i]) {p : Nat} {r : List Nat} (hr : r ∈ g.rules p) :
    r.flatMap h = r := by
  rw [List.flatMap_congr fun m hm => hold m (hw.member_lt p r hr m hm)]
  exact List.flatMap_singleton' r

end Folding

/-! ### One rule at a time -/

/-- The symbol `i` was made for a part of the rule `r`: it has one rule, and unfolds to the same as
that. -/
structure MadeFor (g g' : Grammar α) (h : Nat → List Nat) (r : List Nat) (i : Nat) : Prop where
  ne_nil : h i ≠ []
  lt : ∀ m ∈ h i, m < g.symbols.length
  members : ∀ m ∈ h i, g.isTerminal m = false → m ∈ r
  body : ∃ b, g'.rules i = [b] ∧ h i = b.flatMap h ∧ ∀ m, b = [m] → g.isTerminal m = true

/-- A rule `r` of `p` gives way to `r'`, which comes last and unfolds to `r`, and nothing else
changes for the symbols there were. -/
structure GivesWay (g g' : Grammar α) (h : Nat → List Nat) (p : Nat) (r r' : List Nat) :
    Prop where
  length_le : g.symbols.length ≤ g'.symbols.length
  start : g'.start = g.start
  isTerminal : ∀ i, g'.isTerminal i = g.isTerminal i
  old : ∀ i < g.symbols.length, h i = [i]
  fresh : ∀ i, g.symbols.length ≤ i → i < g'.symbols.length → g.MadeFor g' h r i
  mem : r ∈ g.rules p
  long : 2 ≤ r.length
  long' : 2 ≤ r'.length
  rest : ∀ i < g.symbols.length, i ≠ p → g'.rules i = g.rules i
  rules : g'.rules p = (g.rules p ++ [r']).erase r
  unfolds : r'.flatMap h = r

namespace GivesWay

variable {g g' : Grammar α} {h : Nat → List Nat} {p : Nat} {r r' : List Nat}

lemma rules_eq (hG : g.GivesWay g' h p r r') : g'.rules p = (g.rules p).erase r ++ [r'] := by
  rw [hG.rules, List.erase_append_left _ hG.mem]

lemma singleton_mem_iff (hG : g.GivesWay g' h p r r') {q : Nat} (hq : q < g.symbols.length)
    (m : Nat) : [m] ∈ g'.rules q ↔ [m] ∈ g.rules q := by
  by_cases hqp : q = p
  · subst hqp
    have h₁ : [m] ≠ r := fun h => by simpa [← h] using hG.long
    have h₂ : [m] ≠ r' := fun h => by simpa [← h] using hG.long'
    simp [hG.rules_eq, List.mem_erase_of_ne h₁, h₂]
  · rw [hG.rest q hq hqp]

lemma perm_rules (hG : g.GivesWay g' h p r r') (hw : g.WellFormed) {q : Nat}
    (hq : q < g.symbols.length) : ((g'.rules q).map (·.flatMap h)).Perm (g.rules q) := by
  have hmap : ∀ rs : List (List Nat), (∀ s ∈ rs, s ∈ g.rules q) → rs.map (·.flatMap h) = rs :=
    fun rs hrs => (List.map_congr_left fun s hs => Folding.flatMap_old hw hG.old (hrs s hs)).trans
      (List.map_id' rs)
  by_cases hqp : q = p
  · subst hqp
    rw [hG.rules_eq, List.map_append, hmap _ fun s hs => List.mem_of_mem_erase hs,
      List.map_singleton, hG.unfolds]
    exact List.perm_append_comm.trans (List.perm_cons_erase hG.mem).symm
  · rw [hG.rest q hq hqp, hmap _ fun s hs => hs]

/-- The members of new rules that were there before are members of the rule that gave way. -/
lemma occurs (hG : g.GivesWay g' h p r r') {i : Nat} (hi : i < g.symbols.length)
    (ht : g.isTerminal i = false) : g'.Occurs i → g.Occurs i := by
  rintro ⟨q, s, hs, his⟩
  have hflat : ∀ b : List Nat, i ∈ b → i ∈ b.flatMap h := fun b hib =>
    List.mem_flatMap.2 ⟨i, hib, by rw [hG.old i hi]; exact List.mem_singleton_self i⟩
  rcases Nat.lt_or_ge q g.symbols.length with hq | hq
  · by_cases hqp : q = p
    · subst hqp
      rw [hG.rules_eq, List.mem_append, List.mem_singleton] at hs
      obtain hs | rfl := hs
      · exact ⟨q, s, List.mem_of_mem_erase hs, his⟩
      · exact ⟨q, r, hG.mem, hG.unfolds ▸ hflat s his⟩
    · exact ⟨q, s, hG.rest q hq hqp ▸ hs, his⟩
  · have hmade := hG.fresh q hq (lt_of_mem_rules hs)
    obtain ⟨b, hb, hbody, -⟩ := hmade.body
    rw [hb, List.mem_singleton] at hs
    obtain rfl := hs
    exact ⟨p, r, hG.mem, hmade.members i (hbody ▸ hflat s his) ht⟩

/-- Foldings come from rules that give way one at a time, each to one that unfolds to it. -/
lemma folding (hG : g.GivesWay g' h p r r') (hw : g.WellFormed) : g.Folding g' h where
  length_le := hG.length_le
  start := hG.start
  isTerminal := hG.isTerminal
  old := hG.old
  ne_nil i hi := by
    rcases Nat.lt_or_ge i g.symbols.length with hlt | hge
    · rw [hG.old i hlt]
      exact List.cons_ne_nil i []
    · exact (hG.fresh i hge hi).ne_nil
  lt i hi m hm := by
    rcases Nat.lt_or_ge i g.symbols.length with hlt | hge
    · rw [hG.old i hlt, List.mem_singleton] at hm
      exact hm ▸ hlt
    · exact (hG.fresh i hge hi).lt m hm
  fresh i hge hi := (hG.fresh i hge hi).body
  single q hq := hG.singleton_mem_iff hq
  rules q hq := hG.perm_rules hw hq
  occurs i hi ht := hG.occurs hi ht

end GivesWay

namespace Folding

variable {g g' g'' : Grammar α} {h : Nat → List Nat}

/-! ### What unfolding does to a tree -/

section Unfold

variable (hF : g.Folding g' h)

include hF

lemma unfold_rule {p : Nat} (hp : p < g.symbols.length) {r : List Nat} (hr : r ∈ g'.rules p) :
    r.flatMap h ∈ g.rules p :=
  (hF.rules p hp).mem_iff.1 (List.mem_map_of_mem hr)

lemma exists_rule {p : Nat} (hp : p < g.symbols.length) {r : List Nat} (hr : r ∈ g.rules p) :
    ∃ r' ∈ g'.rules p, r'.flatMap h = r :=
  List.mem_map.1 ((hF.rules p hp).mem_iff.2 hr)

lemma unfold_rule_injective (hw : g.WellFormed) {p : Nat} (hp : p < g.symbols.length)
    {r r' : List Nat} (hr : r ∈ g'.rules p) (hr' : r' ∈ g'.rules p)
    (h : r.flatMap h = r'.flatMap h) : r = r' :=
  List.inj_on_of_nodup_map ((hF.rules p hp).nodup_iff.2 (hw.nodup_rules p)) hr hr' h

lemma lt_of_terminal {t : Nat} (ht : g'.isTerminal t = true) : t < g.symbols.length :=
  lt_of_isTerminal ((hF.isTerminal t).symm.trans ht)

/-- Unfolding a tree of `g'` gives trees of `g` with the same leaves. -/
lemma grows_unfold {t : Tree} (ht : g'.Grows t) :
    (t.unfold g.symbols.length).map Tree.symbol = h t.symbol ∧
      (∀ u ∈ t.unfold g.symbols.length, g.Grows u) ∧
      (t.unfold g.symbols.length).flatMap Tree.places = t.places := by
  induction t using Tree.induct with
  | leaf s p =>
    have hs : g'.isTerminal s = true := grows_leaf.1 ht
    rw [Tree.unfold_leaf, Tree.symbol, hF.old s (hF.lt_of_terminal hs)]
    refine ⟨rfl, fun u hu => ?_, by simp⟩
    rw [List.mem_singleton.1 hu, grows_leaf, ← hF.isTerminal s, hs]
  | node s ts ih =>
    obtain ⟨hr, hts⟩ := grows_node.1 ht
    have hsym : (ts.flatMap (Tree.unfold g.symbols.length)).map Tree.symbol =
        (ts.map Tree.symbol).flatMap h := by
      rw [List.map_flatMap, List.flatMap_map]
      exact List.flatMap_congr fun t ht' => (ih t ht' (hts t ht')).1
    have hfol : ∀ u ∈ ts.flatMap (Tree.unfold g.symbols.length), g.Grows u := by
      intro u hu
      obtain ⟨t, ht', hu⟩ := List.mem_flatMap.1 hu
      exact (ih t ht' (hts t ht')).2.1 u hu
    have hpl : (ts.flatMap (Tree.unfold g.symbols.length)).flatMap Tree.places =
        ts.flatMap Tree.places := by
      rw [List.flatMap_assoc]
      exact List.flatMap_congr fun t ht' => (ih t ht' (hts t ht')).2.2
    rcases Nat.lt_or_ge s g.symbols.length with hs | hs
    · rw [Tree.unfold_node_of_lt hs, Tree.symbol, hF.old s hs, Tree.places_node, ← hpl]
      refine ⟨rfl, fun u hu => ?_, by simp [Tree.places_node]⟩
      rw [List.mem_singleton.1 hu, grows_node, hsym]
      exact ⟨hF.unfold_rule hs hr, hfol⟩
    · rw [Tree.unfold_node_of_le hs, Tree.symbol, Tree.places_node]
      refine ⟨?_, hfol, hpl⟩
      obtain ⟨b, hb, hbody, -⟩ := hF.fresh s hs (lt_of_mem_rules hr)
      rw [hb, List.mem_singleton] at hr
      rw [hsym, hr, hbody]

lemma length_unfold {t : Tree} (ht : g'.Grows t) :
    (t.unfold g.symbols.length).length = (h t.symbol).length := by
  rw [← (hF.grows_unfold ht).1, List.length_map]

/-- Lists of trees with the same symbols that unfold alike do so tree by tree. -/
lemma unfold_injective_list {ts ts' : List Tree} (hts : ∀ t ∈ ts, g'.Grows t)
    (hts' : ∀ t ∈ ts', g'.Grows t)
    (ih : ∀ t ∈ ts, ∀ t', g'.Grows t' → t.symbol = t'.symbol →
      t.unfold g.symbols.length = t'.unfold g.symbols.length → t = t')
    (hs : ts.map Tree.symbol = ts'.map Tree.symbol)
    (hu : ts.flatMap (Tree.unfold g.symbols.length) =
      ts'.flatMap (Tree.unfold g.symbols.length)) : ts = ts' := by
  induction ts generalizing ts' with
  | nil => exact (List.map_eq_nil_iff.1 hs.symm).symm
  | cons t ts ihl =>
    obtain ⟨t', us, rfl, ht, hus⟩ := List.map_eq_cons_iff.1 hs.symm
    have hf := hts t List.mem_cons_self
    have hf' := hts' t' List.mem_cons_self
    rw [List.flatMap_cons, List.flatMap_cons] at hu
    obtain ⟨h₁, h₂⟩ := List.append_inj hu (by
      rw [hF.length_unfold hf, hF.length_unfold hf', ht])
    rw [ih t List.mem_cons_self t' hf' ht.symm h₁,
      ihl (fun u hu => hts u (List.mem_cons_of_mem t hu))
        (fun u hu => hts' u (List.mem_cons_of_mem t' hu))
        (fun u hu => ih u (List.mem_cons_of_mem t hu)) hus.symm h₂]

lemma symbols_flatMap_unfold {ts : List Tree} (hts : ∀ t ∈ ts, g'.Grows t) :
    (ts.flatMap (Tree.unfold g.symbols.length)).map Tree.symbol =
      (ts.map Tree.symbol).flatMap h := by
  rw [List.map_flatMap, List.flatMap_map]
  exact List.flatMap_congr fun t ht => (hF.grows_unfold (hts t ht)).1

/-- Trees with the same symbol that unfold alike are the same. -/
lemma unfold_injective (hw : g.WellFormed) (hw' : g'.WellFormed) {t t' : Tree}
    (ht : g'.Grows t) (ht' : g'.Grows t') (hs : t.symbol = t'.symbol)
    (hu : t.unfold g.symbols.length = t'.unfold g.symbols.length) : t = t' := by
  have hno : ∀ s ts k, g'.Grows (.node s ts) → ¬g'.Grows (.leaf s k) := by
    intro s ts k h h'
    have := hw'.nonterminal_of_mem (grows_node.1 h).1
    simp [grows_leaf.1 h'] at this
  induction t using Tree.induct generalizing t' with
  | leaf s p =>
    cases t' with
    | leaf s' p' =>
      rw [Tree.unfold_leaf, Tree.unfold_leaf] at hu
      exact List.singleton_inj.1 hu
    | node s' ts' =>
      obtain rfl : s = s' := hs
      exact absurd ht (hno s ts' p ht')
  | node s ts ih =>
    cases t' with
    | leaf s' p' =>
      obtain rfl : s = s' := hs
      exact absurd ht' (hno s ts p' ht)
    | node s' ts' =>
      obtain rfl : s = s' := hs
      obtain ⟨hr, hts⟩ := grows_node.1 ht
      obtain ⟨hr', hts'⟩ := grows_node.1 ht'
      suffices hsym : ts.map Tree.symbol = ts'.map Tree.symbol ∧
          ts.flatMap (Tree.unfold g.symbols.length) =
            ts'.flatMap (Tree.unfold g.symbols.length) by
        rw [hF.unfold_injective_list hts hts' (fun t htm t' ht' => ih t htm (hts t htm) ht')
          hsym.1 hsym.2]
      rcases Nat.lt_or_ge s g.symbols.length with hs | hs
      · rw [Tree.unfold_node_of_lt hs, Tree.unfold_node_of_lt hs] at hu
        have hu := (Tree.node.inj (List.singleton_inj.1 hu)).2
        refine ⟨hF.unfold_rule_injective hw hs hr hr' ?_, hu⟩
        rw [← hF.symbols_flatMap_unfold hts, ← hF.symbols_flatMap_unfold hts', hu]
      · rw [Tree.unfold_node_of_le hs, Tree.unfold_node_of_le hs] at hu
        obtain ⟨b, hb, -⟩ := hF.fresh s hs (lt_of_mem_rules hr)
        rw [hb, List.mem_singleton] at hr hr'
        exact ⟨hr.trans hr'.symm, hu⟩

omit hF in
/-- Trees for the members of a list unfold to whatever trees for what the members unfold to. -/
lemma exists_fold_list {b : List Nat} {us : List Tree}
    (hb : ∀ x ∈ b, ∀ us : List Tree, us.map Tree.symbol = h x → (∀ u ∈ us, g'.Grows u) →
      ∃ t : Tree, t.symbol = x ∧ g'.Grows t ∧
        t.unfold g.symbols.length = us.flatMap (Tree.unfold g.symbols.length))
    (hs : us.map Tree.symbol = b.flatMap h) (hus : ∀ u ∈ us, g'.Grows u) :
    ∃ ts : List Tree, ts.map Tree.symbol = b ∧ (∀ t ∈ ts, g'.Grows t) ∧
      ts.flatMap (Tree.unfold g.symbols.length) =
        us.flatMap (Tree.unfold g.symbols.length) := by
  induction b generalizing us with
  | nil =>
    obtain rfl := List.map_eq_nil_iff.1 hs
    exact ⟨[], rfl, nofun, rfl⟩
  | cons x b ih =>
    rw [List.flatMap_cons] at hs
    obtain ⟨us₁, us₂, rfl, h₁, h₂⟩ := List.map_eq_append_iff.1 hs
    obtain ⟨t, htx, ht, hu⟩ := hb x List.mem_cons_self us₁ h₁ fun u hu =>
      hus u (List.mem_append_left us₂ hu)
    obtain ⟨ts, hts, hf, hus'⟩ := ih (fun y hy => hb y (List.mem_cons_of_mem x hy)) h₂ fun u hu =>
      hus u (List.mem_append_right us₁ hu)
    refine ⟨t :: ts, by simp [htx, hts], fun v hv => ?_, by simp [hu, hus']⟩
    rcases List.mem_cons.1 hv with rfl | hv
    · exact ht
    · exact hf v hv

/-- The rule of a new symbol has at least two members if one of them is new, so that each of
them unfolds to less. -/
lemma length_lt_of_mem (hw' : g'.WellFormed) {m x : Nat} {b : List Nat} (hb : b ∈ g'.rules m)
    (hbody : h m = b.flatMap h) (hsingle : ∀ m, b = [m] → g.isTerminal m = true) (hx : x ∈ b)
    (hge : g.symbols.length ≤ x) : (h x).length < (h m).length := by
  have hpos : ∀ y ∈ b, 0 < (h y).length := fun y hy =>
    List.length_pos_of_ne_nil (hF.ne_nil y (hw'.member_lt m b hb y hy))
  obtain ⟨b₁, b₂, rfl⟩ := List.append_of_mem hx
  rw [hbody, List.flatMap_append, List.flatMap_cons, List.length_append, List.length_append]
  rcases b₁ with _ | ⟨y, b₁⟩
  · rcases b₂ with _ | ⟨y, b₂⟩
    · have := lt_of_isTerminal (hsingle x rfl)
      omega
    · have := hpos y (by simp)
      rw [List.flatMap_cons, List.length_append]
      omega
  · have := hpos y (by simp)
    rw [List.flatMap_cons, List.length_append]
    omega

/-- Trees for what a symbol unfolds to can be put below that symbol. The induction is on the
length of what it unfolds to. -/
lemma exists_fold (hw' : g'.WellFormed) {m : Nat} (hm : m < g'.symbols.length) {us : List Tree}
    (hs : us.map Tree.symbol = h m) (hus : ∀ u ∈ us, g'.Grows u) :
    ∃ t : Tree, t.symbol = m ∧ g'.Grows t ∧
      t.unfold g.symbols.length = us.flatMap (Tree.unfold g.symbols.length) := by
  have hold : ∀ x < g.symbols.length, ∀ us : List Tree, us.map Tree.symbol = h x →
      (∀ u ∈ us, g'.Grows u) → ∃ t : Tree, t.symbol = x ∧ g'.Grows t ∧
        t.unfold g.symbols.length = us.flatMap (Tree.unfold g.symbols.length) := by
    intro x hx us hs hus
    rw [hF.old x hx] at hs
    obtain ⟨u, rfl, hu⟩ := List.map_eq_singleton_iff.1 hs
    exact ⟨u, hu, hus u List.mem_cons_self, by simp⟩
  induction hk : (h m).length using Nat.strong_induction_on generalizing m us with
  | _ k ih =>
    subst hk
    rcases Nat.lt_or_ge m g.symbols.length with hlt | hge
    · exact hold m hlt us hs hus
    · obtain ⟨b, hb, hbody, hsingle⟩ := hF.fresh m hge hm
      have hbm : b ∈ g'.rules m := by simp [hb]
      obtain ⟨ts, hts, hf, hu⟩ := exists_fold_list (g := g) (fun x hx us hs hus => by
        rcases Nat.lt_or_ge x g.symbols.length with hxl | hxg
        · exact hold x hxl us hs hus
        · exact ih _ (hF.length_lt_of_mem hw' hbm hbody hsingle hx hxg)
            (hw'.member_lt m b hbm x hx) hs hus rfl) (hs.trans hbody) hus
      refine ⟨.node m ts, rfl, grows_node.2 ⟨?_, hf⟩, ?_⟩
      · rw [hts]
        exact hbm
      · rw [Tree.unfold_node_of_le hge, hu]

/-- Every tree of `g` is unfolded from a tree of `g'`. -/
lemma exists_unfold_eq (hw' : g'.WellFormed) {u : Tree} (hu : g.Grows u) :
    ∃ t : Tree, t.symbol = u.symbol ∧ g'.Grows t ∧ t.unfold g.symbols.length = [u] := by
  induction u using Tree.induct with
  | leaf s p =>
    have hs : g'.isTerminal s = true := (hF.isTerminal s).trans (grows_leaf.1 hu)
    exact ⟨.leaf s p, rfl, grows_leaf.2 hs, Tree.unfold_leaf _ s p⟩
  | node s us ih =>
    obtain ⟨hr, hus⟩ := grows_node.1 hu
    have hs : s < g.symbols.length := lt_of_mem_rules hr
    obtain ⟨r', hr', hrr⟩ := hF.exists_rule hs hr
    -- first a tree of `g'` for every child, then these grouped as the rule of `g'` has them
    obtain ⟨ts, hts, hf, hfl⟩ := Tree.exists_list fun u hu => ih u hu (hus u hu)
    rw [List.flatMap_singleton'] at hfl
    obtain ⟨vs, hvs, hfv, hfl'⟩ := exists_fold_list (g := g)
      (fun x hx us hs hus => hF.exists_fold hw' (hw'.member_lt s r' hr' x hx) hs hus)
      (hts.trans hrr.symm) hf
    refine ⟨.node s vs, rfl, grows_node.2 ⟨?_, hfv⟩, ?_⟩
    · rw [hvs]
      exact hr'
    · rw [Tree.unfold_node_of_lt hs, hfl', hfl]

/-- **Folding keeps the trees**: a symbol of `g` has as many parse trees over given leaves in `g'`
as in `g`. -/
theorem encard_treesOf (hw : g.WellFormed) (hw' : g'.WellFormed) {p : Nat}
    (hp : p < g.symbols.length) (places : List (Nat × Nat)) :
    (g'.treesOf p places).encard = (g.treesOf p places).encard := by
  let f : Tree → Tree := fun t => (t.unfold g.symbols.length).headD t
  have hf : ∀ t ∈ g'.treesOf p places, t.unfold g.symbols.length = [f t] := by
    rintro t ⟨hs, ht, -⟩
    have hlen := hF.length_unfold ht
    rw [hs, hF.old p hp, List.length_singleton, List.length_eq_one_iff] at hlen
    obtain ⟨u, hu⟩ := hlen
    simp [f, hu]
  have hinj : Set.InjOn f (g'.treesOf p places) := by
    intro t ht t' ht' he
    refine hF.unfold_injective hw hw' ht.2.1 ht'.2.1 (ht.1.trans ht'.1.symm) ?_
    rw [hf t ht, hf t' ht', he]
  have himage : f '' g'.treesOf p places = g.treesOf p places := by
    ext u
    constructor
    · rintro ⟨t, ht, rfl⟩
      obtain ⟨hsym, hfol, hpl⟩ := hF.grows_unfold ht.2.1
      rw [hf t ht] at hsym hfol hpl
      refine ⟨?_, hfol _ List.mem_cons_self, ?_⟩
      · rw [ht.1, hF.old p hp] at hsym
        exact List.singleton_inj.1 hsym
      · rw [← ht.2.2, ← hpl, List.flatMap_singleton]
    · rintro ⟨hs, hu, hpl⟩
      obtain ⟨t, hts, ht, htu⟩ := hF.exists_unfold_eq hw' hu
      have hmem : t ∈ g'.treesOf p places := by
        refine ⟨hts.trans hs, ht, ?_⟩
        rw [← (hF.grows_unfold ht).2.2, htu, List.flatMap_singleton, hpl]
      exact ⟨t, hmem, List.singleton_inj.1 ((hf t hmem).symm.trans htu)⟩
  rw [← himage, hinj.encard_image]

end Unfold

end Folding

/-- Some folding leads from `g` to `g'`. -/
def Folds (g g' : Grammar α) : Prop := ∃ h, g.Folding g' h

lemma Folds.refl (g : Grammar α) : g.Folds g := ⟨_, Folding.refl g⟩

lemma Folds.trans {g g' g'' : Grammar α} : g.Folds g' → g'.Folds g'' → g.Folds g'' :=
  fun ⟨_, h⟩ ⟨_, h'⟩ => ⟨_, h.trans h'⟩

namespace Folds

variable {g g' : Grammar α}

lemma length_le (h : g.Folds g') : g.symbols.length ≤ g'.symbols.length :=
  h.elim fun _ hu => hu.length_le

lemma start (h : g.Folds g') : g'.start = g.start := h.elim fun _ hu => hu.start

lemma isTerminal (h : g.Folds g') (i : Nat) : g'.isTerminal i = g.isTerminal i :=
  h.elim fun _ hu => hu.isTerminal i

lemma occurs (h : g.Folds g') {i : Nat} (hi : i < g.symbols.length)
    (ht : g.isTerminal i = false) : g'.Occurs i → g.Occurs i :=
  h.elim fun _ hu => hu.occurs i hi ht

lemma encard_treesOf (h : g.Folds g') (hw : g.WellFormed) (hw' : g'.WellFormed) {p : Nat}
    (hp : p < g.symbols.length) (places : List (Nat × Nat)) :
    (g'.treesOf p places).encard = (g.treesOf p places).encard :=
  h.elim fun _ hu => hu.encard_treesOf hw hw' hp places

end Folds

/-- A loop of foldings is a folding. -/
lemma folds_foldlM {g g' : Grammar α} {β : Type} {f : Grammar α → β → Trail Record (Grammar α)}
    {xs : List β}
    (hf : ∀ c, ∀ x ∈ xs, ∀ c', c.WellFormed → g.Folds c → (f c x).result = .ok c' →
      c.Folds c' ∧ c'.WellFormed) (hw : g.WellFormed)
    (h : (xs.foldlM f g).result = .ok g') : g.Folds g' := by
  have := Trail.foldlM_keeps (fun c => g.Folds c ∧ c.WellFormed) (fun c x hx c' hc hcc' => by
    obtain ⟨h₁, h₂⟩ := hf c x hx c' hc.2 hc.1 hcc'
    exact ⟨hc.1.trans h₁, h₂⟩) ⟨Folds.refl g, hw⟩ h
  exact this.1

end Grammar

end Chomsky
