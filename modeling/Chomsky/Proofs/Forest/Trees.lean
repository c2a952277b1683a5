import Mathlib.Data.List.Nodup
import Chomsky.Proofs.Forest.Build

/-!
The trees of a forest are exactly the trees over each span, each of them once: different reasons
lead to trees of different shape.
-/

namespace Chomsky.Forest

open Search (atSpan entries found)

variable {α : Type} {c : NormalGrammar α} {input : List (Option Nat)} {row col p : Nat}
  {f : Forest} {t : Tree}

/-! ### Reasons -/

/-- The reasons for a symbol over a span of the input. -/
def reasonsIn (c : NormalGrammar α) (input : List (Option Nat)) (row col p : Nat) :
    List Pointer :=
  pointersOf (atSpan (entries c input) row col) p

lemma mem_reasonsIn (hc : c.WellFormed) (h : Triangle.Contains input.length row col)
    {ptr : Pointer} : ptr ∈ reasonsIn c input row col p ↔
      (∃ x, row = 0 ∧ input[col]? = some (some x) ∧ .terminal x ∈ c.rulesAt p ∧
        ptr = .terminal x) ∨
      ∃ k l r, 1 ≤ k ∧ k ≤ row ∧ l ∈ found (entries c input) c.tags.size (k - 1) col ∧
        r ∈ found (entries c input) c.tags.size (row - k) (col + k) ∧ .pair l r ∈ c.rulesAt p ∧
        ptr = .split k l r := by
  simp only [reasonsIn, pointersOf, List.mem_map, List.mem_filter, decide_eq_true_eq,
    Search.atSpan_entries h, Search.spanEntries]
  by_cases h0 : row = 0
  · simp only [if_pos h0, Search.mem_terminalEntries hc]
    constructor
    · rintro ⟨_, ⟨⟨x, q, hx, hr, rfl⟩, rfl⟩, rfl⟩
      exact .inl ⟨x, h0, hx, hr, rfl⟩
    · rintro (⟨x, -, hx, hr, rfl⟩ | ⟨k, l, r, h₁, h₂, -⟩)
      · exact ⟨_, ⟨⟨x, p, hx, hr, rfl⟩, rfl⟩, rfl⟩
      · omega
  · simp only [if_neg h0, Search.mem_splitEntries hc]
    constructor
    · rintro ⟨_, ⟨⟨k, l, r, q, h₁, h₂, hl, hr, hrule, rfl⟩, rfl⟩, rfl⟩
      exact .inr ⟨k, l, r, h₁, h₂, hl, hr, hrule, rfl⟩
    · rintro (⟨x, hrow, -⟩ | ⟨k, l, r, h₁, h₂, hl, hr, hrule, rfl⟩)
      · exact absurd hrow h0
      · exact ⟨_, ⟨⟨k, l, r, p, h₁, h₂, hl, hr, hrule, rfl⟩, rfl⟩, rfl⟩

lemma nodup_found (es : List Entry) (n row col : Nat) : (found es n row col).Nodup :=
  List.nodup_range.filter _

lemma nodup_owners (rule : NormalRule) : (Search.owners c rule).Nodup :=
  List.nodup_range.filter _

lemma nodup_spanEntries (es : List Entry) (span : Nat × Nat) :
    (Search.spanEntries c input es span).Nodup := by
  unfold Search.spanEntries
  split
  · unfold Search.terminalEntries
    split
    · exact List.nodup_nil
    · exact (nodup_owners _).map fun p q h => (Entry.mk.inj h).2.2.1
  · -- an entry tells at which point of the loops it was made
    have hmap : ∀ k l r, ((Search.owners c (.pair l r)).map fun p =>
        Entry.mk span.1 span.2 p (.split k l r)).Nodup := fun k l r =>
      (nodup_owners _).map fun p q h => (Entry.mk.inj h).2.2.1
    refine List.nodup_flatMap.2 ⟨fun k _ => List.nodup_flatMap.2 ⟨fun l _ =>
      List.nodup_flatMap.2 ⟨fun r _ => hmap k l r, ?_⟩, ?_⟩, ?_⟩
    · refine (nodup_found es _ _ _).imp fun {r r'} hne e he he' => hne ?_
      obtain ⟨p, -, rfl⟩ := List.mem_map.1 he
      obtain ⟨q, -, h⟩ := List.mem_map.1 he'
      exact (Pointer.split.inj (Entry.mk.inj h).2.2.2).2.2.symm
    · refine (nodup_found es _ _ _).imp fun {l l'} hne e he he' => hne ?_
      simp only [List.mem_flatMap, List.mem_map] at he he'
      obtain ⟨r, -, p, -, rfl⟩ := he
      obtain ⟨r', -, q, -, h⟩ := he'
      exact (Pointer.split.inj (Entry.mk.inj h).2.2.2).2.1.symm
    · have hrange : (List.range' 1 span.1).Nodup := List.nodup_range' 1
      refine hrange.imp fun {k k'} hne e he he' => hne ?_
      simp only [List.mem_flatMap, List.mem_map] at he he'
      obtain ⟨l, -, r, -, p, -, rfl⟩ := he
      obtain ⟨l', -, r', -, q, -, h⟩ := he'
      exact (Pointer.split.inj (Entry.mk.inj h).2.2.2).1.symm

lemma nodup_reasonsIn (h : Triangle.Contains input.length row col) :
    (reasonsIn c input row col p).Nodup := by
  refine List.Nodup.map_on (fun e he e' he' hptr => ?_) (List.Nodup.filter _ ?_)
  · simp only [List.mem_filter, decide_eq_true_eq, Search.mem_atSpan] at he he'
    obtain ⟨⟨-, h₁, h₂⟩, h₃⟩ := he
    obtain ⟨⟨-, h₁', h₂'⟩, h₃'⟩ := he'
    cases e
    cases e'
    simp_all
  · rw [Search.atSpan_entries h]
    exact nodup_spanEntries _ _

lemma Holds.pointers (hf : Holds c input f) (ha : Accepted c input)
    (h : Triangle.Contains input.length row col) :
    f.pointers row col p = .ok (reasonsIn c input row col p) := by
  obtain ⟨len, cells, roots⟩ := f
  obtain rfl : len = input.length := hf.len
  obtain rfl : roots = [c.start] := hf.roots ha
  have hcond : (!isEmpty ⟨input.length, cells, [c.start]⟩ &&
      decide (Triangle.Contains input.length row col)) = true := by
    simp [isEmpty, h]
  rw [Forest.pointers, if_pos hcond, cellAt_of_groups (hf.groups ha) hf.len_le h, except_ok_bind,
    get?_cellOf]
  rfl

/-! ### Trees by reason -/

/-- The trees of a symbol for one reason. -/
def treesBy (f : Forest) (row col p : Nat) : Pointer → List Tree
  | .terminal x => [.node p [.leaf x col]]
  | .split k l r => (f.allTreesAt (k - 1) col l).flatMap fun lt =>
      (f.allTreesAt (row - k) (col + k) r).map fun rt => .node p [lt, rt]

lemma Holds.allTreesAt (hf : Holds c input f) (hc : c.WellFormed) (ha : Accepted c input)
    (h : Triangle.Contains input.length row col) : f.allTreesAt row col p =
      (reasonsIn c input row col p).flatMap (f.treesBy row col p) := by
  have hlen := hf.length_le ha
  rw [Forest.allTreesAt, reasons, hf.pointers ha h]
  refine List.flatMap_congr fun ptr hptr => ?_
  obtain ⟨x, -, -, -, rfl⟩ | ⟨k, l, r, h₁, h₂, -, -, -, rfl⟩ := (mem_reasonsIn hc h).1 hptr
  · rfl
  · have hparts := Triangle.parts_eq h₁ h₂ h hlen
    simp only [treesBy]
    split
    · next he => rw [hparts] at he; cases he
    · next lp rp he =>
      rw [hparts] at he
      obtain ⟨rfl, rfl⟩ := Prod.mk.inj (Except.ok.inj he)
      rfl

/-- **The trees of a forest** are the trees over the spans of the input. -/
theorem Holds.mem_allTreesAt (hf : Holds c input f) (hc : c.WellFormed) (ha : Accepted c input)
    (h : Triangle.Contains input.length row col) :
    t ∈ f.allTreesAt row col p ↔ c.Spans input row col p t := by
  induction row using Nat.strong_induction_on generalizing col p t with
  | _ row ih =>
    rw [hf.allTreesAt hc ha h, List.mem_flatMap, NormalGrammar.spans_iff hc h]
    constructor
    · rintro ⟨ptr, hptr, ht⟩
      obtain ⟨x, h0, hx, hr, rfl⟩ | ⟨k, l, r, h₁, h₂, -, -, hr, rfl⟩ :=
        (mem_reasonsIn hc h).1 hptr
      · exact .inl ⟨x, h0, hx, hr, List.mem_singleton.1 ht⟩
      · simp only [treesBy, List.mem_flatMap, List.mem_map] at ht
        obtain ⟨lt, hlt, rt, hrt, rfl⟩ := ht
        exact .inr ⟨k, l, r, lt, rt, h₁, h₂, hr, rfl,
          (ih _ (by omega) (Triangle.contains_left h₁ h₂ h)).1 hlt,
          (ih _ (by omega) (Triangle.contains_right h₁ h₂ h)).1 hrt⟩
    · rintro (⟨x, h0, hx, hr, rfl⟩ | ⟨k, l, r, lt, rt, h₁, h₂, hr, rfl, hlt, hrt⟩)
      · exact ⟨.terminal x, (mem_reasonsIn hc h).2 (.inl ⟨x, h0, hx, hr, rfl⟩),
          List.mem_singleton_self _⟩
      · have hl := Triangle.contains_left h₁ h₂ h
        have hr' := Triangle.contains_right h₁ h₂ h
        refine ⟨.split k l r, (mem_reasonsIn hc h).2 (.inr ⟨k, l, r, h₁, h₂,
          (Search.mem_found_iff hc hl).2 ⟨lt, hlt⟩, (Search.mem_found_iff hc hr').2 ⟨rt, hrt⟩,
          hr, rfl⟩), ?_⟩
        simp only [treesBy, List.mem_flatMap, List.mem_map]
        exact ⟨lt, (ih _ (by omega) hl).2 hlt, rt, (ih _ (by omega) hr').2 hrt, rfl⟩

lemma length_places {lt : Tree} {k l : Nat} (h : c.Spans input (k - 1) col l lt) (h₁ : 1 ≤ k)
    (hcontains : Triangle.Contains input.length (k - 1) col) : lt.places.length = k := by
  have hlen := congrArg List.length h.places
  rw [length_spanPlaces hcontains, Tree.inputPlaces, List.length_map] at hlen
  omega

/-- No tree is listed twice. -/
theorem Holds.nodup_allTreesAt (hf : Holds c input f) (hc : c.WellFormed) (ha : Accepted c input)
    (h : Triangle.Contains input.length row col) : (f.allTreesAt row col p).Nodup := by
  induction row using Nat.strong_induction_on generalizing col p with
  | _ row ih =>
    rw [hf.allTreesAt hc ha h]
    refine List.nodup_flatMap.2 ⟨fun ptr hptr => ?_, ?_⟩
    · obtain ⟨x, -, -, -, rfl⟩ | ⟨k, l, r, h₁, h₂, -, -, -, rfl⟩ := (mem_reasonsIn hc h).1 hptr
      · exact List.nodup_singleton _
      · have hl := ih (k - 1) (by omega) (Triangle.contains_left h₁ h₂ h) (p := l)
        have hr := ih (row - k) (by omega) (Triangle.contains_right h₁ h₂ h) (p := r)
        refine List.nodup_flatMap.2 ⟨fun lt _ => hr.map fun rt rt' heq => ?_, ?_⟩
        · simpa using heq
        · refine hl.imp fun {lt lt'} hne t ht ht' => hne ?_
          obtain ⟨rt, -, rfl⟩ := List.mem_map.1 ht
          obtain ⟨rt', -, heq⟩ := List.mem_map.1 ht'
          exact (by simpa using heq : lt' = lt ∧ rt' = rt).1.symm
    · -- a tree tells its reason: a leaf, or the symbols and the length of its left part
      refine (nodup_reasonsIn h).imp_of_mem fun {ptr ptr'} hptr hptr' hne t ht ht' => hne ?_
      obtain ⟨x, h0, -, -, rfl⟩ | ⟨k, l, r, h₁, h₂, -, -, -, rfl⟩ :=
        (mem_reasonsIn hc h).1 hptr <;>
      obtain ⟨x', h0', -, -, rfl⟩ | ⟨k', l', r', h₁', h₂', -, -, -, rfl⟩ :=
        (mem_reasonsIn hc h).1 hptr'
      · rw [List.mem_singleton.1 ht] at ht'
        simpa [treesBy] using ht'
      · omega
      · omega
      · simp only [treesBy, List.mem_flatMap, List.mem_map] at ht ht'
        obtain ⟨lt, hlt, rt, hrt, rfl⟩ := ht
        obtain ⟨lt', hlt', rt', hrt', heq⟩ := ht'
        obtain ⟨rfl, rfl⟩ : lt' = lt ∧ rt' = rt := by simpa using heq
        have hl := Triangle.contains_left h₁ h₂ h
        have hl' := Triangle.contains_left h₁' h₂' h
        have hlt := (hf.mem_allTreesAt hc ha hl).1 hlt
        have hlt' := (hf.mem_allTreesAt hc ha hl').1 hlt'
        obtain rfl : k' = k :=
          (length_places hlt' h₁' hl').symm.trans (length_places hlt h₁ hl)
        have hr := Triangle.contains_right h₁ h₂ h
        have hrt := (hf.mem_allTreesAt hc ha hr).1 hrt
        have hrt' := (hf.mem_allTreesAt hc ha hr).1 hrt'
        rw [← hlt.symbol, ← hlt'.symbol, ← hrt.symbol, ← hrt'.symbol]

end Chomsky.Forest
