import Chomsky.Forest
import Chomsky.Proofs.Forest.Trees

/-!
Listing the trees of a forest up to a limit gives the first trees of the list of all trees. Limits
that are passed down cut off only what would be cut off in the end.
-/

namespace Chomsky.Forest

variable {α β γ : Type} {c : NormalGrammar α} {input : List (Option Nat)} {row col p room : Nat}
  {f : Forest}

/-! ### Lists cut off early -/

/-- Where every element gives something, what comes after the first `n` elements is not needed. -/
lemma take_flatMap_take {g : β → List γ} {xs : List β} (hg : ∀ x ∈ xs, g x ≠ []) {m n : Nat}
    (hmn : m ≤ n) : ((xs.take n).flatMap g).take m = (xs.flatMap g).take m := by
  induction xs generalizing m n with
  | nil => simp
  | cons x xs ih =>
    cases n with
    | zero =>
      obtain rfl : m = 0 := by omega
      simp
    | succ n =>
      have hpos := List.length_pos_of_ne_nil (hg x List.mem_cons_self)
      rw [List.take_succ_cons, List.flatMap_cons, List.flatMap_cons, List.take_append,
        List.take_append, ih (fun y hy => hg y (List.mem_cons_of_mem x hy)) (by omega)]

/-- The same for the elements of the inner lists. -/
lemma take_flatMap_map_take {δ : Type} (g : β → γ → δ) (xs : List β) (ys : List γ) (n : Nat) :
    (xs.flatMap fun x => (ys.take n).map (g x)).take n =
      (xs.flatMap fun x => ys.map (g x)).take n := by
  rcases Nat.lt_or_ge n ys.length with hlt | hge
  · cases xs with
    | nil => rfl
    | cons x xs =>
      have hlen : ((ys.take n).map (g x)).length = n := by simp; omega
      rw [List.flatMap_cons, List.flatMap_cons, List.take_left' hlen,
        List.take_append_of_le_length (by simp; omega), List.map_take]
  · rw [List.take_of_length_le hge]

lemma pairTrees_eq (p room : Nat) (ls rs : List Tree) : pairTrees p room ls rs =
    (ls.flatMap fun l => rs.map fun r => .node p [l, r]).take room := by
  induction ls generalizing room with
  | nil => simp [pairTrees]
  | cons l ls ih =>
    simp only [pairTrees, ih, List.flatMap_cons]
    rw [List.take_append, List.map_take, List.length_take, List.length_map]
    congr 2
    omega

/-- Cutting off both lists of parts first makes no difference. -/
lemma pairTrees_take (p room : Nat) (ls rs : List Tree) :
    pairTrees p room (ls.take room) (rs.take room) =
      (ls.flatMap fun l => rs.map fun r => Tree.node p [l, r]).take room := by
  rw [pairTrees_eq, take_flatMap_map_take (fun l r => Tree.node p [l, r])]
  cases rs with
  | nil =>
    have hnil : ∀ us : List Tree, (us.flatMap fun _ => ([] : List Tree)) = [] := fun us =>
      List.flatMap_eq_nil_iff.2 fun _ _ => rfl
    simp [hnil]
  | cons r rs => exact take_flatMap_take (fun l _ => by simp) (Nat.le_refl _)

lemma collect_eq {find : Nat → β → Except Fault (List Tree)} {all : β → List Tree}
    {xs : List β} (h : ∀ x ∈ xs, ∀ room, 1 ≤ room → find room x = .ok ((all x).take room))
    (hroom : 1 ≤ room) : collect find room xs = .ok ((xs.flatMap all).take room) := by
  induction xs generalizing room with
  | nil => simp [collect]
  | cons x xs ih =>
    rw [collect, h x List.mem_cons_self room hroom, except_ok_bind, List.flatMap_cons,
      List.take_append, List.length_take]
    split
    · next hfull =>
      have hzero : room - (all x).length = 0 := by omega
      rw [hzero, List.take_zero, List.append_nil]
      rfl
    · next hmore =>
      have hsub : room - min room (all x).length = room - (all x).length := by omega
      rw [hsub, ih (fun y hy => h y (List.mem_cons_of_mem x hy)) (by omega)]
      rfl

/-! ### Trees of a forest -/

lemma Holds.treesAt (hf : Holds c input f) (hc : c.WellFormed) (ha : Accepted c input)
    (h : Triangle.Contains input.length row col) (hroom : 1 ≤ room) :
    f.treesAt row col p room = .ok ((f.allTreesAt row col p).take room) := by
  have hlen := hf.length_le ha
  induction row using Nat.strong_induction_on generalizing col p room with
  | _ row ih =>
    rw [Forest.treesAt, hf.pointers ha h, except_ok_bind, hf.allTreesAt hc ha h]
    refine collect_eq (fun ptr hptr room hroom => ?_) hroom
    obtain ⟨x, -, -, -, rfl⟩ | ⟨k, l, r, h₁, h₂, -, -, -, rfl⟩ := (mem_reasonsIn hc h).1 hptr
    · simp only [treesBy]
      rw [List.take_of_length_le (by simpa using hroom)]
    · have hparts := Triangle.parts_eq h₁ h₂ h hlen
      simp only
      split
      · next he => rw [hparts] at he; cases he
      · next lp rp he =>
        rw [hparts] at he
        obtain ⟨rfl, rfl⟩ := Prod.mk.inj (Except.ok.inj he)
        rw [ih (k - 1) (by omega) (Triangle.contains_left h₁ h₂ h) hroom,
          ih (row - k) (by omega) (Triangle.contains_right h₁ h₂ h) hroom, except_ok_bind,
          except_ok_bind, pairTrees_take]
        rfl

/-- **A limit cuts off the list of all trees.** -/
theorem Holds.treesUpTo (hf : Holds c input f) (hc : c.WellFormed) (limit : Nat) :
    f.treesUpTo limit = .ok (f.allTrees.take limit) := by
  unfold Forest.treesUpTo
  split
  · next h => rw [h, List.take_zero]
  · next h =>
    by_cases ha : Accepted c input
    · have hpos : 1 ≤ f.len := by
        rw [hf.len]
        exact List.length_pos_of_ne_nil ha.1
      refine collect_eq (fun root _ room hroom => ?_) (by omega)
      rw [Size.sub_of_le hpos, except_ok_bind, hf.len]
      exact hf.treesAt hc ha (contains_whole ha.1) hroom
    · rw [allTrees, hf.rejected ha, List.flatMap_nil, List.take_nil]
      unfold collect
      rfl

lemma Holds.allTrees_of_accepted (hf : Holds c input f) (ha : Accepted c input) :
    f.allTrees = f.allTreesAt (input.length - 1) 0 c.start := by
  rw [allTrees, hf.roots ha, hf.len, List.flatMap_singleton]

/-- All trees of a forest are all trees of the input. -/
theorem Holds.mem_allTrees (hf : Holds c input f) (hc : c.WellFormed) {t : Tree} :
    t ∈ f.allTrees ↔ input ≠ [] ∧ c.Spans input (input.length - 1) 0 c.start t := by
  by_cases ha : Accepted c input
  · rw [hf.allTrees_of_accepted ha, hf.mem_allTreesAt hc ha (contains_whole ha.1)]
    exact (and_iff_right ha.1).symm
  · rw [allTrees, hf.rejected ha]
    simp only [List.flatMap_nil, List.not_mem_nil, false_iff]
    exact fun h => ha ⟨h.1, t, h.2⟩

theorem Holds.nodup_allTrees (hf : Holds c input f) (hc : c.WellFormed) : f.allTrees.Nodup := by
  by_cases ha : Accepted c input
  · rw [hf.allTrees_of_accepted ha]
    exact hf.nodup_allTreesAt hc ha (contains_whole ha.1)
  · rw [allTrees, hf.rejected ha]
    exact List.nodup_nil

end Chomsky.Forest
