import Chomsky.Proofs.Except
import Chomsky.Proofs.Grammar.Reachable
import Chomsky.Proofs.ParseTree
import Chomsky.Theory.TreeWalk

/-!
All ways of walking through a tree come to the same. What a loop has written, followed by what is
still to be written for the subtrees on its stack, stays the same from turn to turn; and every
subtree comes off the stack once, so there is a turn for each leaf and each node.
-/

namespace Chomsky

namespace NormalGrammar

variable {α : Type} [Label α] {c : NormalGrammar α} {i : Nat}

lemma nameText_eq_nameAt (h : i < c.ids.length) : c.nameText i = .ok (c.nameAt i) := by
  rw [nameText, ident, nameAt, List.getElem?_eq_getElem h]
  rfl

lemma nameText_eq_error (h : c.ids.length ≤ i) : c.nameText i = .error .outOfRange := by
  rw [nameText, ident, List.getElem?_eq_none h]
  rfl

end NormalGrammar

namespace Tree

variable {α β ω : Type}

/-! ### Recursion along the children -/

/-- A recursion along a list of trees that puts together what it makes of each. -/
lemma eq_flatMap {f : Tree → List β} {g : List Tree → List β} (nil : g [] = [])
    (cons : ∀ t ts, g (t :: ts) = f t ++ g ts) (ts : List Tree) : g ts = ts.flatMap f := by
  induction ts with
  | nil => exact nil
  | cons t ts ih => rw [cons, ih, List.flatMap_cons]

lemma leafList_node (s : Nat) (ts : List Tree) : (node s ts).leafList = ts.flatMap leafList :=
  eq_flatMap rfl (fun _ _ => rfl) ts

lemma symbols_node (s : Nat) (ts : List Tree) :
    (node s ts).symbols = s :: ts.flatMap symbols :=
  congrArg (s :: ·) (eq_flatMap rfl (fun _ _ => rfl) ts)

lemma outline_node (name : Nat → String) (d s : Nat) (ts : List Tree) :
    outline name d (node s ts) = line d (name s) :: ts.flatMap (outline name (d + 1)) :=
  congrArg (line d (name s) :: ·) (eq_flatMap rfl (fun _ _ => rfl) ts)

lemma length_flatMap_of_weight {f : Tree → List β} {ts : List Tree}
    (h : ∀ t ∈ ts, (f t).length = t.weight) : (ts.flatMap f).length = weightAll ts := by
  induction ts with
  | nil => rfl
  | cons t ts ih =>
    rw [List.flatMap_cons, List.length_append, h t List.mem_cons_self,
      ih fun u hu => h u (List.mem_cons_of_mem t hu), weightAll]

/-- A line for each leaf and each node. -/
lemma length_outline (name : Nat → String) (d : Nat) (t : Tree) :
    (outline name d t).length = t.weight := by
  induction t using induct generalizing d with
  | leaf s p => rfl
  | node s ts ih =>
    rw [outline_node, List.length_cons, weight,
      length_flatMap_of_weight fun t ht => ih t ht (d + 1)]

/-! ### Turns of a loop -/

lemma pile_eq_append (xs stack : List β) : pile xs stack = xs ++ stack := by
  rw [pile, List.foldl_reverse]
  exact List.foldr_cons_eq_append'

namespace Walk.EndsIn

variable {w : Walk β ω} {stack : List β} {out out' : ω} {n n' : Nat} {r r' : Except Fault ω}

lemma unique (h : w.EndsIn stack out n r) (h' : w.EndsIn stack out n' r') :
    n' = n ∧ r' = r := by
  induction h generalizing n' with
  | done =>
    cases h'
    exact ⟨rfl, rfl⟩
  | turn hw _ ih =>
    cases h' with
    | turn hw' rest' =>
      obtain rfl := Except.ok.inj (hw.symm.trans hw')
      obtain ⟨rfl, rfl⟩ := ih rest'
      exact ⟨rfl, rfl⟩
    | fault hw' => cases hw.symm.trans hw'
  | fault hw =>
    cases h' with
    | turn hw' _ => cases hw.symm.trans hw'
    | fault hw' =>
      obtain rfl := Except.error.inj (hw.symm.trans hw')
      exact ⟨rfl, rfl⟩

/-- A loop that empties its stack makes as many turns as a measure of the stack says that goes down
by one with each turn. -/
lemma turns_eq (total : List β → Nat) (nil : total [] = 0)
    (cons : ∀ x stack, total (x :: stack) = total (w.below x ++ stack) + 1)
    (h : w.EndsIn stack out n (.ok out')) : n = total stack := by
  generalize hr : Except.ok out' = r at h
  induction h with
  | done => exact nil.symm
  | turn _ _ ih => rw [ih hr, pile_eq_append, cons]
  | fault => cases hr

/-- To know one end of a loop is to know all of them. -/
lemma iff_of_ok (total : List β → Nat) (nil : total [] = 0)
    (cons : ∀ x stack, total (x :: stack) = total (w.below x ++ stack) + 1)
    (h : w.EndsIn stack out n (.ok out')) :
    w.EndsIn stack out n' r ↔ n' = total stack ∧ r = .ok out' := by
  rw [← h.turns_eq total nil cons]
  refine ⟨h.unique, ?_⟩
  rintro ⟨rfl, rfl⟩
  exact h

end Walk.EndsIn

/-- The weight of a stack goes down by one when its top makes room for its children. -/
lemma weightAll_cons_eq (t : Tree) (stack : List Tree) :
    weightAll (t :: stack) = weightAll (t.children ++ stack) + 1 := by
  cases t with
  | leaf s p => rw [weightAll, weight, children, List.nil_append, Nat.add_comm]
  | node s ts => rw [weightAll, weight, children, weightAll_append, Nat.add_right_comm]

lemma weightAll_singleton (t : Tree) : weightAll [t] = t.weight := Nat.add_zero _

/-! ### Leaves -/

lemma walkLeaves_eq_flatMap (pending : List Tree) :
    walkLeaves pending = pending.flatMap leafList := by
  fun_induction walkLeaves pending with
  | case1 => rfl
  | case2 s p rest ih => rw [ih, List.flatMap_cons, leafList, List.singleton_append]
  | case3 s ts rest ih => rw [ih, List.flatMap_append, List.flatMap_cons, leafList_node]

/-- What is written, followed by the leaves of the stack, is the same before and after a turn. -/
lemma leafWalk_endsIn (stack : List Tree) (out : List Nat) :
    ∃ n, leafWalk.EndsIn stack out n (.ok (out ++ walkLeaves stack)) := by
  induction stack using walkLeaves.induct generalizing out with
  | case1 => exact ⟨0, by simpa [walkLeaves] using Walk.EndsIn.done⟩
  | case2 s p rest ih =>
    obtain ⟨n, hn⟩ := ih (out ++ [s])
    rw [List.append_assoc, List.singleton_append] at hn
    rw [walkLeaves]
    exact ⟨n + 1, .turn rfl hn⟩
  | case3 s ts rest ih =>
    obtain ⟨n, hn⟩ := ih out
    rw [walkLeaves]
    exact ⟨n + 1, .turn rfl (by rwa [pile_eq_append])⟩

lemma leaves_eq_leafList (t : Tree) : t.leaves = t.leafList := by
  rw [leaves, walkLeaves_eq_flatMap, List.flatMap_singleton]

lemma leafWalk_endsIn_iff {t : Tree} {n : Nat} {r : Except Fault (List Nat)} :
    leafWalk.EndsIn [t] [] n r ↔ n = t.weight ∧ r = .ok t.leaves := by
  obtain ⟨k, hk⟩ := leafWalk_endsIn [t] []
  rw [← weightAll_singleton]
  exact hk.iff_of_ok weightAll rfl weightAll_cons_eq

/-! ### Lines -/

section Lines

variable [Label α] {c : NormalGrammar α}

/-- The symbols of all subtrees on a stack. -/
def symbolsAt (pending : List (Nat × Tree)) : List Nat := pending.flatMap fun x => x.2.symbols

lemma symbolsAt_leaf (d s p : Nat) (rest : List (Nat × Tree)) :
    symbolsAt ((d, leaf s p) :: rest) = s :: symbolsAt rest := rfl

lemma symbolsAt_node (d s : Nat) (ts : List Tree) (rest : List (Nat × Tree)) :
    symbolsAt ((d, node s ts) :: rest) = s :: symbolsAt (atDepth (d + 1) ts ++ rest) := by
  simp only [symbolsAt, atDepth, List.flatMap_cons, List.flatMap_append, List.flatMap_map,
    symbols_node, List.cons_append]

lemma walkLines_eq_ok (pending : List (Nat × Tree))
    (h : ∀ s ∈ symbolsAt pending, s < c.ids.length) :
    walkLines c pending = .ok (pending.flatMap fun x => outline c.nameAt x.1 x.2) := by
  induction pending using walkLines.induct with
  | case1 => rw [walkLines, List.flatMap_nil]
  | case2 d s p rest ih =>
    rw [symbolsAt_leaf, List.forall_mem_cons] at h
    rw [walkLines, NormalGrammar.nameText_eq_nameAt h.1, except_ok_bind, ih h.2]
    rfl
  | case3 d s ts rest ih =>
    rw [symbolsAt_node, List.forall_mem_cons] at h
    rw [walkLines, NormalGrammar.nameText_eq_nameAt h.1, except_ok_bind, ih h.2,
      List.flatMap_cons, outline_node, List.flatMap_append, atDepth, List.flatMap_map]
    rfl

lemma line_cons_eq_error {s : Nat} {f : String → String} {rest : Except Fault (List String)}
    (h : c.ids.length ≤ s ∨ rest = .error .outOfRange) :
    (do
      let name ← c.nameText s
      let lines ← rest
      pure (f name :: lines) : Except Fault (List String)) = .error .outOfRange := by
  rcases Nat.lt_or_ge s c.ids.length with hlt | hge
  · rw [NormalGrammar.nameText_eq_nameAt hlt, except_ok_bind, h.resolve_left (by omega)]
    rfl
  · rw [NormalGrammar.nameText_eq_error hge]
    rfl

/-- A walk breaks off at a symbol that the grammar does not have. -/
lemma walkLines_eq_error (pending : List (Nat × Tree))
    (h : ∃ s ∈ symbolsAt pending, c.ids.length ≤ s) :
    walkLines c pending = .error .outOfRange := by
  induction pending using walkLines.induct with
  | case1 => exact absurd h (by simp [symbolsAt])
  | case2 d s p rest ih =>
    rw [symbolsAt_leaf, List.exists_mem_cons_iff] at h
    rw [walkLines]
    exact line_cons_eq_error (h.imp_right ih)
  | case3 d s ts rest ih =>
    rw [symbolsAt_node, List.exists_mem_cons_iff] at h
    rw [walkLines]
    exact line_cons_eq_error (h.imp_right ih)

lemma symbolsAt_singleton (d : Nat) (t : Tree) : symbolsAt [(d, t)] = t.symbols :=
  List.flatMap_singleton _ _

lemma render_eq_ok {t : Tree} (h : ∀ s ∈ t.symbols, s < c.ids.length) :
    t.render c = .ok (String.join (outline c.nameAt 0 t)) := by
  rw [← symbolsAt_singleton 0] at h
  rw [render, walkLines_eq_ok _ h, List.flatMap_singleton]
  rfl

lemma render_eq_error {t : Tree} (h : ∃ s ∈ t.symbols, c.ids.length ≤ s) :
    t.render c = .error .outOfRange := by
  rw [← symbolsAt_singleton 0] at h
  rw [render, walkLines_eq_error _ h]
  rfl

/-! ### The loop that writes lines -/

lemma indent_eq_append (depth : Nat) (out : String) :
    indent depth out = out ++ String.ofList (List.replicate depth ' ') := by
  induction depth generalizing out with
  | zero => simp [indent]
  | succ depth ih =>
    rw [indent, ih, ← String.toList_inj]
    simp [List.replicate_succ]

lemma indent_append (depth : Nat) (out text : String) :
    indent depth out ++ (text ++ "\n") = out ++ line depth text := by
  rw [indent_eq_append, line, String.append_assoc, String.append_assoc]

lemma write_leaf (out : String) (d s p : Nat) : (lineWalk c).write out (d, leaf s p) =
    (c.nameText s).map fun name => out ++ line d (name ++ " " ++ p.repr) := by
  simp only [lineWalk, indent_append]
  rfl

lemma write_node (out : String) (d s : Nat) (ts : List Tree) :
    (lineWalk c).write out (d, node s ts) =
      (c.nameText s).map fun name => out ++ line d name := by
  simp only [lineWalk, indent_append]
  rfl

/-- If a turn writes one line, and from there on the loop writes what `rest` lists, then it writes
that line and what `rest` lists. -/
lemma lineWalk_turn {x : Nat × Tree} {stack : List (Nat × Tree)} {out : String} {d : Nat}
    {name : Except Fault String} {f : String → String} {rest : Except Fault (List String)}
    (hwrite : (lineWalk c).write out x = name.map fun a => out ++ line d (f a))
    (hrest : ∀ out, ∃ n, (lineWalk c).EndsIn (pile ((lineWalk c).below x) stack) out n
      (rest.map fun lines => out ++ String.join lines)) :
    ∃ n, (lineWalk c).EndsIn (x :: stack) out n ((do
      let a ← name
      let lines ← rest
      pure (line d (f a) :: lines) : Except Fault (List String)).map
        fun lines => out ++ String.join lines) := by
  cases name with
  | error e => exact ⟨1, .fault hwrite⟩
  | ok a =>
    obtain ⟨n, hn⟩ := hrest (out ++ line d (f a))
    refine ⟨n + 1, .turn hwrite ?_⟩
    cases rest with
    | error e => exact hn
    | ok lines =>
      simpa only [Except.map, except_ok_bind, pure, Except.pure, String.join_cons,
        String.append_assoc] using hn

/-- The loop writes the lines, or breaks off where they do. -/
lemma lineWalk_endsIn (c : NormalGrammar α) (stack : List (Nat × Tree)) (out : String) :
    ∃ n, (lineWalk c).EndsIn stack out n
      ((walkLines c stack).map fun lines => out ++ String.join lines) := by
  induction stack using walkLines.induct generalizing out with
  | case1 => exact ⟨0, by simpa [walkLines, Except.map] using Walk.EndsIn.done⟩
  | case2 d s p rest ih =>
    rw [walkLines]
    exact lineWalk_turn (write_leaf out d s p) ih
  | case3 d s ts rest ih =>
    rw [walkLines]
    refine lineWalk_turn (write_node out d s ts) ?_
    rw [pile_eq_append]
    exact ih

lemma weightAll_below (c : NormalGrammar α) (x : Nat × Tree) (stack : List (Nat × Tree)) :
    weightAll ((x :: stack).map (·.2)) =
      weightAll (((lineWalk c).below x ++ stack).map (·.2)) + 1 := by
  rw [List.map_cons, weightAll_cons_eq, List.map_append, lineWalk, map_snd_atDepth]

lemma lineWalk_endsIn_render (c : NormalGrammar α) (t : Tree) :
    ∃ n, (lineWalk c).EndsIn [(0, t)] "" n (t.render c) := by
  simpa only [String.empty_append, render] using lineWalk_endsIn c [(0, t)] ""

lemma lineWalk_endsIn_iff {t : Tree} {text : String} (h : t.render c = .ok text) {n : Nat}
    {r : Except Fault String} :
    (lineWalk c).EndsIn [(0, t)] "" n r ↔ n = t.weight ∧ r = .ok text := by
  obtain ⟨k, hk⟩ := lineWalk_endsIn_render c t
  rw [h] at hk
  rw [← weightAll_singleton]
  exact hk.iff_of_ok (fun stack => weightAll (stack.map (·.2))) rfl (weightAll_below c)

end Lines

/-! ### Walks in full -/

/-- **Walking over a stack gives what recursion gives**, whatever number of children the nodes of a
tree have. The loops end, with one turn for each leaf and each node, and end in no other way. One
gives the leaves from left to right, the other a line for each leaf and each node, if the grammar
has all symbols of the tree. It breaks off if the grammar does not have one of them. -/
theorem walks_exact [Label α] (t : Tree) :
    (t.leaves = t.leafList ∧
      ∀ n r, leafWalk.EndsIn [t] [] n r ↔ n = t.weight ∧ r = .ok t.leafList) ∧
    ∀ c : NormalGrammar α,
      ((∀ s ∈ t.symbols, s < c.ids.length) →
        t.render c = .ok (String.join (outline c.nameAt 0 t)) ∧
        (outline c.nameAt 0 t).length = t.weight ∧
        ∀ n r, (lineWalk c).EndsIn [(0, t)] "" n r ↔
          n = t.weight ∧ r = .ok (String.join (outline c.nameAt 0 t))) ∧
      ((∃ s ∈ t.symbols, c.ids.length ≤ s) → t.render c = .error .outOfRange ∧
        ∃ n, (lineWalk c).EndsIn [(0, t)] "" n (.error .outOfRange)) := by
  refine ⟨⟨leaves_eq_leafList t, fun n r => ?_⟩, fun c => ⟨fun h => ?_, fun h => ?_⟩⟩
  · rw [← leaves_eq_leafList]
    exact leafWalk_endsIn_iff
  · have hrender := render_eq_ok h
    exact ⟨hrender, length_outline _ _ _, fun n r => lineWalk_endsIn_iff hrender⟩
  · have hrender := render_eq_error h
    exact ⟨hrender, hrender ▸ lineWalk_endsIn_render c t⟩

/-- A node without children, a leaf beside nodes, and a node with one child. -/
def uneven : Tree := .node 4 [.node 0 [], .leaf 1 7, .node 2 [.leaf 1 0]]

/-- Both loops make five turns; a leaf that the grammar does not have breaks off the second one. -/
theorem walks_exact_uneven :
    uneven.leaves = [1, 1] ∧ leafWalk.EndsIn [uneven] [] 5 (.ok [1, 1]) ∧
    (∀ s ∈ uneven.symbols, s < Grammar.alternatingSnapshot.ids.length) ∧
    uneven.render Grammar.alternatingSnapshot = .ok "~1\n S\n a 7\n ^0\n  a 0\n" ∧
    (lineWalk Grammar.alternatingSnapshot).EndsIn [(0, uneven)] "" 5
      (.ok "~1\n S\n a 7\n ^0\n  a 0\n") ∧
    (∃ s ∈ (node 0 [leaf 5 0]).symbols, Grammar.alternatingSnapshot.ids.length ≤ s) ∧
    (node 0 [leaf 5 0]).render Grammar.alternatingSnapshot = .error .outOfRange := by
  have hin : ∀ s ∈ uneven.symbols, s < Grammar.alternatingSnapshot.ids.length := by decide
  have hout : ∃ s ∈ (node 0 [leaf 5 0]).symbols, Grammar.alternatingSnapshot.ids.length ≤ s := by
    decide
  have htext : String.join (outline Grammar.alternatingSnapshot.nameAt 0 uneven) =
      "~1\n S\n a 7\n ^0\n  a 0\n" := by decide
  obtain ⟨⟨hleaves, hleafWalk⟩, hlines⟩ := walks_exact (α := String) uneven
  obtain ⟨hrender, -, hlineWalk⟩ := (hlines Grammar.alternatingSnapshot).1 hin
  obtain ⟨-, hstray⟩ := walks_exact (α := String) (node 0 [leaf 5 0])
  rw [htext] at hrender
  simp only [htext] at hlineWalk
  exact ⟨hleaves, (hleafWalk _ _).2 ⟨rfl, rfl⟩, hin, hrender, (hlineWalk _ _).2 ⟨rfl, rfl⟩,
    hout, ((hstray Grammar.alternatingSnapshot).2 hout).1⟩

end Tree

end Chomsky
