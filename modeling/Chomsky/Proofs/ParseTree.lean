import Mathlib.Data.Set.Basic
import Chomsky.Proofs.Grammar.Primitive
import Chomsky.Theory.Derivation

/-!
Derivations and parse trees. A symbol derives a word exactly when it has a parse tree over the
positions of the word, so that statements on languages follow from statements on trees.
-/

namespace Chomsky

namespace Tree

/-- Induction over a tree, all children at once. -/
theorem induct {P : Tree → Prop} (leaf : ∀ s p, P (.leaf s p))
    (node : ∀ s ts, (∀ t ∈ ts, P t) → P (.node s ts)) : ∀ t, P t
  | .leaf s p => leaf s p
  | .node s ts => node s ts fun t _ => induct leaf node t

lemma placesOf_eq (ts : List Tree) : placesOf ts = ts.flatMap places := by
  induction ts with
  | nil => rfl
  | cons t ts ih => rw [placesOf, ih, List.flatMap_cons]

lemma places_node (s : Nat) (ts : List Tree) : (node s ts).places = ts.flatMap places := by
  rw [places, placesOf_eq]

variable {R : RuleSet} {T : Nat → Prop}

lemma allFollow_iff (ts : List Tree) : AllFollow R T ts ↔ ∀ t ∈ ts, Follows R T t := by
  induction ts with
  | nil => simp [AllFollow]
  | cons t ts ih => simp [AllFollow, ih]

lemma follows_node {s : Nat} {ts : List Tree} : Follows R T (node s ts) ↔
    R s (ts.map symbol) ∧ ∀ t ∈ ts, Follows R T t := by
  rw [Follows, allFollow_iff]

lemma terminal_of_mem_places {t : Tree} (h : t.Follows R T) {x : Nat × Nat}
    (hx : x ∈ t.places) : T x.1 := by
  induction t using induct with
  | leaf s p =>
    obtain rfl : x = (s, p) := by simpa [places] using hx
    exact h
  | node s ts ih =>
    rw [places_node] at hx
    obtain ⟨t, ht, hx⟩ := List.mem_flatMap.1 hx
    exact ih t ht ((follows_node.1 h).2 t ht) hx

/-- Only the rules of symbols that a tree can contain matter to it. -/
lemma follows_congr {R' : RuleSet} {P : Nat → Prop} (hR : ∀ p, P p → ∀ r, R p r ↔ R' p r)
    (hP : ∀ p, P p → ∀ r, R p r → ∀ m ∈ r, P m) {t : Tree} (ht : P t.symbol) :
    t.Follows R T ↔ t.Follows R' T := by
  induction t using induct with
  | leaf s p => rfl
  | node s ts ih =>
    rw [follows_node, follows_node, ← hR s ht]
    refine and_congr_right fun hs => forall₂_congr fun t htm => ih t htm ?_
    exact hP s ht _ hs _ (List.mem_map_of_mem htm)

/-- What can be done with each tree of a list can be done with the list. -/
lemma exists_list {β : Type} {P : Tree → Prop} {f f' : Tree → List β} {ts : List Tree}
    (h : ∀ t ∈ ts, ∃ t' : Tree, t'.symbol = t.symbol ∧ P t' ∧ f' t' = f t) :
    ∃ ts' : List Tree, ts'.map symbol = ts.map symbol ∧ (∀ t ∈ ts', P t) ∧
      ts'.flatMap f' = ts.flatMap f := by
  induction ts with
  | nil => exact ⟨[], rfl, nofun, rfl⟩
  | cons t ts ih =>
    obtain ⟨t', hs, hP, hf⟩ := h t List.mem_cons_self
    obtain ⟨ts', hss, hPs, hfs⟩ := ih fun u hu => h u (List.mem_cons_of_mem t hu)
    refine ⟨t' :: ts', by simp [hs, hss], fun u hu => ?_, by simp [hf, hfs]⟩
    rcases List.mem_cons.1 hu with rfl | hu
    · exact hP
    · exact hPs u hu

end Tree

namespace RuleSet

variable {R : RuleSet} {T : Nat → Prop}

/-- The parse trees of a symbol whose leaves are given. -/
def trees (R : RuleSet) (T : Nat → Prop) (p : Nat) (places : List (Nat × Nat)) : Set Tree :=
  {t | t.symbol = p ∧ t.Follows R T ∧ t.places = places}

lemma produces_context {u v : List Nat} (a b : List Nat)
    (h : Relation.ReflTransGen R.Produces u v) :
    Relation.ReflTransGen R.Produces (a ++ u ++ b) (a ++ v ++ b) := by
  induction h with
  | refl => exact .refl
  | @tail v w _ hvw ih =>
    refine ih.tail ?_
    cases hvw with
    | replace before after hr =>
      have := Produces.replace (a ++ before) (after ++ b) hr
      simpa [List.append_assoc] using this

lemma produces_mono {R' : RuleSet} (h : ∀ p r, R p r → R' p r) {u v : List Nat}
    (huv : Relation.ReflTransGen R.Produces u v) : Relation.ReflTransGen R'.Produces u v := by
  refine Relation.ReflTransGen.mono (fun _ _ hs => ?_) _ _ huv
  cases hs with
  | replace before after hr => exact .replace before after (h _ _ hr)

/-- If each symbol stands for a list that leads to what the members of its rules stand for, then
derivations lead from what a list stands for to what it derives stands for. -/
lemma produces_standFor {R' : RuleSet} {f : Nat → List Nat}
    (h : ∀ p r, R p r → Relation.ReflTransGen R'.Produces (f p) (r.flatMap f)) {u v : List Nat}
    (huv : Relation.ReflTransGen R.Produces u v) :
    Relation.ReflTransGen R'.Produces (u.flatMap f) (v.flatMap f) := by
  induction huv with
  | refl => exact .refl
  | tail _ hstep ih =>
    cases hstep with
    | @replace p r before after hr =>
      have hlift := produces_context (before.flatMap f) (after.flatMap f) (h p r hr)
      simp only [List.flatMap_append, List.flatMap_cons, List.append_assoc] at hlift ih ⊢
      exact ih.trans hlift

lemma produces_flatMap {ts : List Tree} {f : Tree → List Nat}
    (h : ∀ t ∈ ts, Relation.ReflTransGen R.Produces [t.symbol] (f t)) :
    Relation.ReflTransGen R.Produces (ts.map Tree.symbol) (ts.flatMap f) := by
  induction ts with
  | nil => exact .refl
  | cons t ts ih =>
    have h₁ := produces_context [] (ts.map Tree.symbol) (h t List.mem_cons_self)
    have h₂ := produces_context (f t) [] (ih fun u hu => h u (List.mem_cons_of_mem t hu))
    simp only [List.nil_append, List.singleton_append, List.append_nil] at h₁ h₂
    rw [List.map_cons, List.flatMap_cons]
    exact h₁.trans h₂

/-- A tree is a derivation of its leaves. -/
lemma produces_of_follows {t : Tree} (h : t.Follows R T) :
    Relation.ReflTransGen R.Produces [t.symbol] (t.places.map (·.1)) := by
  induction t using Tree.induct with
  | leaf s p => exact .refl
  | node s ts ih =>
    obtain ⟨hr, hts⟩ := Tree.follows_node.1 h
    have h₁ : R.Produces [s] (ts.map Tree.symbol) := by
      simpa using Produces.replace [] [] hr
    have h₂ := produces_flatMap fun t ht => ih t ht (hts t ht)
    rw [Tree.places_node, List.map_flatMap]
    exact .head h₁ h₂

/-- A derivation gives trees, by folding its steps from the last one back. -/
lemma exists_trees_of_produces {ms w : List Nat} (h : Relation.ReflTransGen R.Produces ms w)
    (hw : ∀ t ∈ w, T t) (k : Nat) : ∃ ts : List Tree, ts.map Tree.symbol = ms ∧
      (∀ t ∈ ts, t.Follows R T) ∧ ts.flatMap Tree.places = w.zipIdx k := by
  induction h using Relation.ReflTransGen.head_induction_on with
  | refl =>
    refine ⟨(w.zipIdx k).map fun x => .leaf x.1 x.2, ?_, ?_, ?_⟩
    · simp [Function.comp_def, Tree.symbol]
    · intro t ht
      obtain ⟨x, hx, rfl⟩ := List.mem_map.1 ht
      have hx : x.1 ∈ (w.zipIdx k).map (·.1) := List.mem_map_of_mem hx
      rw [List.zipIdx_map_fst] at hx
      exact hw x.1 hx
    · rw [List.flatMap_map]
      exact List.flatMap_singleton' _
  | head hs _ ih =>
    cases hs with
    | @replace p _ before after hr =>
      obtain ⟨ts, hsym, hf, hpl⟩ := ih
      obtain ⟨ts₁₂, ts₃, rfl, h₁₂, h₃⟩ := List.map_eq_append_iff.1 hsym
      obtain ⟨ts₁, ts₂, rfl, h₁, h₂⟩ := List.map_eq_append_iff.1 h₁₂
      refine ⟨ts₁ ++ .node p ts₂ :: ts₃, by simp [h₁, h₃, Tree.symbol], fun t ht => ?_, ?_⟩
      · rcases List.mem_append.1 ht with ht | ht
        · exact hf t (by simp [ht])
        rcases List.mem_cons.1 ht with rfl | ht
        · exact Tree.follows_node.2 ⟨h₂ ▸ hr, fun t ht => hf t (by simp [ht])⟩
        · exact hf t (by simp [ht])
      · rw [← hpl]
        simp [Tree.places_node]

/-- **Derivations are trees**: a symbol derives a word exactly when it has a parse tree over it,
wherever its positions begin. -/
theorem derives_iff_trees {p : Nat} {w : List Nat} (k : Nat) :
    R.Derives T p w ↔ (R.trees T p (w.zipIdx k)).Nonempty := by
  constructor
  · rintro ⟨hd, hw⟩
    obtain ⟨ts, hsym, hf, hpl⟩ := exists_trees_of_produces hd hw k
    obtain ⟨t, rfl, rfl⟩ : ∃ t, ts = [t] ∧ t.symbol = p := by
      obtain ⟨t, ts', rfl, ht, hts⟩ := List.map_eq_cons_iff.1 hsym
      exact ⟨t, by rw [List.map_eq_nil_iff.1 hts], ht⟩
    exact ⟨t, rfl, hf t (by simp), by simpa using hpl⟩
  · rintro ⟨t, rfl, hf, hpl⟩
    refine ⟨?_, fun x hx => ?_⟩
    · have := produces_of_follows hf
      rwa [hpl, List.zipIdx_map_fst] at this
    · rw [← List.zipIdx_map_fst k w, ← hpl] at hx
      obtain ⟨y, hy, rfl⟩ := List.mem_map.1 hx
      exact Tree.terminal_of_mem_places hf hy

end RuleSet

variable {α : Type}

namespace Grammar

/-- The tree follows the rules, with terminals as its leaves. -/
def Grows (g : Grammar α) (t : Tree) : Prop := t.Follows g.ruleSet (g.isTerminal · = true)

lemma grows_leaf {g : Grammar α} {s k : Nat} : g.Grows (.leaf s k) ↔ g.isTerminal s = true :=
  Iff.rfl

lemma grows_node {g : Grammar α} {s : Nat} {ts : List Tree} : g.Grows (.node s ts) ↔
    ts.map Tree.symbol ∈ g.rules s ∧ ∀ t ∈ ts, g.Grows t :=
  Tree.follows_node

/-- The parse trees of a symbol of a grammar. -/
def treesOf (g : Grammar α) (p : Nat) (places : List (Nat × Nat)) : Set Tree :=
  g.ruleSet.trees (g.isTerminal · = true) p places

lemma derives_iff {g : Grammar α} {p : Nat} {w : List Nat} :
    g.Derives p w ↔ (g.treesOf p w.zipIdx).Nonempty :=
  RuleSet.derives_iff_trees 0

/-- Grammars that agree on what a symbol can lead to give it the same trees. -/
lemma treesOf_congr {g g' : Grammar α} {P : Nat → Prop}
    (hterm : ∀ i, g'.isTerminal i = g.isTerminal i)
    (hrules : ∀ p, P p → ∀ r, r ∈ g'.rules p ↔ r ∈ g.rules p)
    (hP : ∀ p, P p → ∀ r ∈ g.rules p, ∀ m ∈ r, P m) {p : Nat} (hp : P p)
    (places : List (Nat × Nat)) : g'.treesOf p places = g.treesOf p places := by
  have hcongr : g'.isTerminal = g.isTerminal := funext hterm
  ext t
  simp only [treesOf, RuleSet.trees, Set.mem_ofPred_eq, hcongr]
  refine and_congr_right fun hs => and_congr_left fun _ => ?_
  exact (Tree.follows_congr (fun q hq r => (hrules q hq r).symm) hP (hs ▸ hp)).symm

end Grammar

end Chomsky
