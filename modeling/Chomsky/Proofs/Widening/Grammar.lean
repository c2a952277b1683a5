import Chomsky.Render
import Chomsky.Proofs.Grammar.Reachable

/-!
Grammars at a greater index width. A change to the wider grammar is the same change with the same
records, unless the narrower one has run out of indices.
-/

namespace Chomsky

namespace Trail

variable {ρ α β γ δ : Type}

@[simp] lemma records_map (f : α → β) (x : Trail ρ α) : (f <$> x).records = x.records := by
  rcases x with ⟨rs, _ | a⟩
  · rfl
  · exact List.append_nil rs

@[simp] lemma result_map (f : α → β) (x : Trail ρ α) : (f <$> x).result = x.result.map f := by
  rcases x with ⟨rs, _ | a⟩ <;> rfl

/-- `y` is the run `x` with its result carried over by `f`, or else `x` has run out of indices. -/
def Tracks (f : α → β) (x : Trail ρ α) (y : Trail ρ β) : Prop :=
  x.result = .error .indexSpaceFull ∨ y = f <$> x

namespace Tracks

variable {f : α → β} {x : Trail ρ α} {y : Trail ρ β}

lemma of_eq (h : y = f <$> x) : Tracks f x y := .inr h

lemma pure (f : α → β) (a : α) : Tracks f (Pure.pure a : Trail ρ α) (Pure.pure (f a)) := .inr rfl

lemma refl (x : Trail ρ α) : Tracks id x x := .inr (id_map x).symm

lemma bind {f' : γ → δ} {k : α → Trail ρ γ} {k' : β → Trail ρ δ} (h : Tracks f x y)
    (hk : ∀ a, x.result = .ok a → Tracks f' (k a) (k' (f a))) :
    Tracks f' (x >>= k) (y >>= k') := by
  obtain h | rfl := h
  · exact .inl (bind_eq_error.2 (.inl h))
  · rw [Tracks, map_bind, bind_map_left]
    rcases hx : x.result with e | a
    · rw [bind_of_error hx, bind_of_error hx, bind_of_error hx]
      exact .inr rfl
    · obtain hfull | hk := hk a hx
      · exact .inl (bind_eq_error.2 (.inr ⟨a, hx, hfull⟩))
      · rw [bind_of_ok hx (fun a => k' (f a)), bind_of_ok hx (fun a => f' <$> k a), hk]
        exact .inr rfl

/-- A loop over the same elements, the steps of which track each other as long as `I` holds. -/
lemma foldlM {ε : Type} (I : α → Prop) {s : α → ε → Trail ρ α} {s' : β → ε → Trail ρ β}
    {xs : List ε} (hs : ∀ a, I a → ∀ x, Tracks f (s a x) (s' (f a) x))
    (hI : ∀ a x a', I a → (s a x).result = .ok a' → I a') {a : α} (ha : I a) :
    Tracks f (xs.foldlM s a) (xs.foldlM s' (f a)) := by
  induction xs generalizing a with
  | nil => exact .pure f a
  | cons x xs ih =>
    rw [List.foldlM_cons, List.foldlM_cons]
    exact (hs a ha x).bind fun a' h => ih (hI a x a' ha h)

end Tracks

end Trail

namespace Width

variable {w : Width} {n : Nat}

lemma map_wrap_range (h : n ≤ w.max) : (List.range n).map w.wrap = List.range n := by
  have hwrap : ∀ i ∈ List.range n, w.wrap i = i := by
    intro i hi
    have hi := List.mem_range.1 hi
    exact wrap_of_le (by omega)
  exact (List.map_congr_left hwrap).trans (List.map_id' _)

lemma map_wrap_findIdx? {β : Type} {xs : List β} (f : β → Bool) (h : xs.length ≤ w.max) :
    (xs.findIdx? f).map w.wrap = xs.findIdx? f := by
  cases hi : xs.findIdx? f with
  | none => rfl
  | some i =>
    obtain ⟨hlt, -⟩ := List.findIdx?_eq_some_iff_getElem.1 hi
    exact congrArg some (wrap_of_le (by omega))

end Width

namespace Grammar

variable {α : Type}

/-- The same grammar with indices of another width. -/
def widen (w : Width) (g : Grammar α) : Grammar α := { g with width := w }

variable {g : Grammar α} {w : Width} {p : Nat} {r : List Nat}

/-- No conversion of a number of symbols or of a position to an index drops a digit. -/
structure Exact [DecidableEq α] (g : Grammar α) : Prop where
  size : g.size = g.symbols.length
  indices : g.indices = List.range g.symbols.length
  index? : ∀ a, g.index? a = g.position? (.user a)
  append : ∀ id terminal, (g.append id terminal).1 = g.symbols.length

/-- This is so up to the greatest number of symbols, and with that number. -/
lemma exact_of_le [DecidableEq α] (hg : g.symbols.length ≤ g.width.max) : g.Exact where
  size := Width.wrap_of_le hg
  indices := Width.map_wrap_range hg
  index? _ := Width.map_wrap_findIdx? _ hg
  append _ _ := Width.wrap_of_le hg

@[simp] lemma symbols_widen : (g.widen w).symbols = g.symbols := rfl

@[simp] lemma width_widen : (g.widen w).width = w := rfl

@[simp] lemma symbol_widen : (g.widen w).symbol p = g.symbol p := rfl

lemma insertRule_widen : (g.widen w).insertRule p r = widen w <$> g.insertRule p r := by
  rw [insertRule, insertRule, symbol_widen, map_bind]
  congr 1
  funext s
  split
  · rfl
  · split
    · rfl
    · rw [symbols_widen, map_bind]
      split
      · rfl
      · rfl

lemma removeRule_widen : (g.widen w).removeRule p r = widen w <$> g.removeRule p r := by
  rw [removeRule, removeRule, symbol_widen, map_bind]
  congr 1
  funext s
  rw [symbols_widen]
  split
  · rfl
  · split
    · rfl
    · rfl

lemma insertRule_tracks :
    Trail.Tracks (widen w) (g.insertRule p r) ((g.widen w).insertRule p r) :=
  .of_eq insertRule_widen

lemma removeRule_tracks :
    Trail.Tracks (widen w) (g.removeRule p r) ((g.widen w).removeRule p r) :=
  .of_eq removeRule_widen

section Push

variable [DecidableEq α] {new : Ident α}

lemma exact_widen (hg : g.symbols.length ≤ g.width.max) (hw : g.width.max ≤ w.max) :
    (g.widen w).Exact := exact_of_le (g := g.widen w) (Nat.le_trans hg hw)

lemma size_widen (hg : g.symbols.length ≤ g.width.max) (hw : g.width.max ≤ w.max) :
    (g.widen w).size = g.size :=
  (exact_widen hg hw).size.trans (exact_of_le hg).size.symm

lemma indices_widen (hg : g.symbols.length ≤ g.width.max) (hw : g.width.max ≤ w.max) :
    (g.widen w).indices = g.indices :=
  (exact_widen hg hw).indices.trans (exact_of_le hg).indices.symm

lemma index?_widen (hg : g.symbols.length ≤ g.width.max) (hw : g.width.max ≤ w.max) (a : α) :
    (g.widen w).index? a = g.index? a :=
  ((exact_widen hg hw).index? a).trans ((exact_of_le hg).index? a).symm

lemma append_widen (hg : g.symbols.length ≤ g.width.max) (hw : g.width.max ≤ w.max)
    (terminal : Bool) :
    (g.widen w).append new terminal = Prod.map id (widen w) (g.append new terminal) :=
  Prod.ext (((exact_widen hg hw).append new terminal).trans
    ((exact_of_le hg).append new terminal).symm) rfl

lemma push_tracks (hw : g.width.max ≤ w.max) {terminal : Bool} :
    Trail.Tracks (Prod.map id (widen w))
      (liftM (g.push new terminal) : Trail Record (Nat × Grammar α))
      (liftM ((g.widen w).push new terminal)) := by
  by_cases hfull : g.width.max ≤ g.symbols.length
  · left
    rw [push, if_pos hfull]
    rfl
  · right
    by_cases hdup : g.symbols.any (·.id = new)
    · rw [push, push, symbols_widen, width_widen, if_neg (by omega), if_neg hfull, if_pos hdup,
        if_pos hdup]
      rfl
    · rw [push, push, symbols_widen, width_widen, if_neg (by omega), if_neg hfull, if_neg hdup,
        if_neg hdup, append_widen (by omega) hw]
      rfl

/-- The same for a symbol with a number, of which there may be no next one. -/
lemma pushNext_tracks {n : Nat} {f : Nat → Grammar α} (hw : ∀ m, (f m).width.max ≤ w.max) :
    Trail.Tracks (Prod.map id (widen w))
      (liftM (nextCount n >>= fun m => (f m).push new false) : Trail Record (Nat × Grammar α))
      (liftM (nextCount n >>= fun m => ((f m).widen w).push new false)) := by
  rcases nextCount n with e | m
  · exact .inr rfl
  · exact push_tracks (hw m)

lemma pushSynthetic_tracks (hw : g.width.max ≤ w.max) :
    Trail.Tracks (Prod.map id (widen w))
      (liftM g.pushSynthetic : Trail Record (Nat × Grammar α))
      (liftM (g.widen w).pushSynthetic) :=
  pushNext_tracks (f := fun m => { g with nextSynthetic := m }) fun _ => hw

lemma pushStart_tracks (hw : g.width.max ≤ w.max) :
    Trail.Tracks (Prod.map id (widen w)) (liftM g.pushStart : Trail Record (Nat × Grammar α))
      (liftM (g.widen w).pushStart) :=
  pushNext_tracks (f := fun m => { g with nextStart := m }) fun _ => hw

end Push

/-! ### Requests -/

section Requests

variable [DecidableEq α] {a : α} {as : List α} (hg : g.symbols.length ≤ g.width.max)
  (hw : g.width.max ≤ w.max)

include hg hw

lemma declare_widen (a : α) (terminal : Bool) :
    (∃ r, g.declare a terminal = .error r ∧ r.reason = .tooManySymbols) ∨
      (g.widen w).declare a terminal = (g.declare a terminal).map (Prod.map id (widen w)) := by
  rw [declare, declare, index?_widen hg hw, symbols_widen, width_widen]
  by_cases ha : (g.index? a).isSome
  · rw [if_pos ha, if_pos ha]
    exact .inr rfl
  · rw [if_neg ha, if_neg ha]
    by_cases hfull : g.width.max ≤ g.symbols.length
    · rw [if_pos hfull]
      exact .inl ⟨_, rfl, rfl⟩
    · rw [if_neg hfull, if_neg (by omega), append_widen hg hw]
      exact .inr rfl

lemma resolveRule_widen : (g.widen w).resolveRule p as = g.resolveRule p as := by
  have hresolve : (g.widen w).resolve as = g.resolve as := by
    induction as with
    | nil => rfl
    | cons a as ih => rw [resolve, resolve, index?_widen hg hw, ih]
  rw [resolveRule, resolveRule, hresolve, symbols_widen]

lemma addRule_widen : (g.widen w).addRule a as = (g.addRule a as).map (widen w <$> ·) := by
  have hterminal : ∀ i, (g.widen w).isTerminal i = g.isTerminal i := fun _ => rfl
  rw [addRule, addRule, index?_widen hg hw]
  cases g.index? a with
  | none => rfl
  | some i =>
    simp only [hterminal, resolveRule_widen hg hw]
    split
    · rfl
    · cases g.resolveRule i as with
      | error r => rfl
      | ok r => exact congrArg Except.ok insertRule_widen

lemma addRuleToStart_widen :
    (g.widen w).addRuleToStart as = (g.addRuleToStart as).map (widen w <$> ·) := by
  have hstart : (g.widen w).start = g.start := rfl
  rw [addRuleToStart, addRuleToStart, hstart, resolveRule_widen hg hw]
  cases g.resolveRule g.start as with
  | error r => rfl
  | ok r => exact congrArg Except.ok insertRule_widen

lemma assignTag_widen {tag : α} :
    (g.widen w).assignTag a tag = (g.assignTag a tag).map (widen w) := by
  rw [assignTag, assignTag, index?_widen hg hw]
  cases g.index? a with
  | none => rfl
  | some i => rfl

/-- The same for all requests but normalisation. -/
lemma apply_widen {e : Edit α} (he : e ≠ .normalize) :
    (∃ r, g.apply e = .error r ∧ r.reason = .tooManySymbols) ∨
      (g.widen w).apply e = (g.apply e).map (widen w <$> ·) := by
  cases e with
  | declare a terminal =>
    obtain ⟨r, hr, hfull⟩ | h := declare_widen hg hw a terminal
    · exact .inl ⟨r, by rw [apply, hr]; rfl, hfull⟩
    · right
      rw [apply, apply, h]
      cases g.declare a terminal <;> rfl
  | addRule a as => exact .inr (addRule_widen hg hw)
  | addRuleToStart as => exact .inr (addRuleToStart_widen hg hw)
  | assignTag a b =>
    right
    rw [apply, apply, assignTag_widen hg hw]
    cases g.assignTag a b <;> rfl
  | normalize => exact absurd rfl he

lemma render_widen [Label α] : (g.widen w).render = g.render := by
  rw [render, render, indices_widen hg hw]
  rfl

end Requests

end Grammar

end Chomsky
