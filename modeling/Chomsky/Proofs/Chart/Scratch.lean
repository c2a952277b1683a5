import Chomsky.Proofs.Chart.Fill

/-!
One set for the shared parents of all pairs does as well as a new one for each pair: it is cleared
before it is written over, so nothing of the pair before is left in it. And a counter that is asked
at each entry gives out where the entries of the whole run are too many for it.
-/

namespace Chomsky

/-! ### Counting on from a number -/

namespace Trail

variable {ρ β γ δ : Type} {limit n : Nat}

/-- The run with a counter of its records that stands at `n` before them. -/
def countedFrom (limit n : Nat) (x : Trail ρ β) : Trail ρ (β × Nat) :=
  if x.records.length ≤ limit - n then (·, n + x.records.length) <$> x
  else ⟨x.records.take (limit - n + 1), .error .counterFull⟩

lemma countedFrom_pure (b : β) :
    (Pure.pure b : Trail ρ β).countedFrom limit n = Pure.pure (b, n) := by
  simp [countedFrom]

/-- Counting does not change a result. -/
lemma result_of_countedFrom {x : Trail ρ β} {b : β} {m : Nat}
    (h : (x.countedFrom limit n).result = .ok (b, m)) : x.result = .ok b := by
  unfold countedFrom at h
  split at h
  · obtain ⟨b', hb', h⟩ := map_eq_ok.1 h
    obtain ⟨rfl, -⟩ := Prod.mk.inj h
    exact hb'
  · cases h

/-- The counter goes on where the first run has left it. -/
lemma countedFrom_bind (x : Trail ρ β) (f : β → Trail ρ γ) : (x >>= f).countedFrom limit n =
    x.countedFrom limit n >>= fun y => (f y.1).countedFrom limit y.2 := by
  obtain ⟨rs, result⟩ := x
  cases result with
  | error e =>
    by_cases h : rs.length ≤ limit - n <;> simp [countedFrom, h, Functor.map, Trail.bind]
  | ok b =>
    by_cases h : rs.length ≤ limit - n
    · by_cases h' : (f b).records.length ≤ limit - (n + rs.length)
      · have hsum : rs.length + (f b).records.length ≤ limit - n := by omega
        rcases hf : (f b).result with e | c <;>
          simp [countedFrom, h, h', hf, hsum, Functor.map, Trail.bind, Nat.add_assoc]
      · have hsum : ¬rs.length + (f b).records.length ≤ limit - n := by omega
        have hroom : limit - n + 1 - rs.length = limit - (n + rs.length) + 1 := by omega
        have htake : rs.take (limit - n + 1) = rs := List.take_of_length_le (by omega)
        simp [countedFrom, h, h', hsum, Functor.map, Trail.bind, List.take_append, hroom, htake]
    · have hsum : ¬rs.length + (f b).records.length ≤ limit - n := by omega
      have hroom : limit - n + 1 - rs.length = 0 := by omega
      simp [countedFrom, h, hsum, List.take_append, hroom]

end Trail

/-! ### Sets that are written over -/

namespace BitSet

variable {s t u : BitSet} {n : Nat}

end BitSet

variable {α : Type} {c : NormalGrammar α} {out s : BitSet} {l r : Nat}

namespace NormalGrammar

end NormalGrammar

namespace Chart

variable {β γ δ : Type} {n : Nat} {kept : Kept}

/-- `run'` gives what `run` gives, and what the loop keeps beside it: the set to write over has a
bit for each symbol, and the counter has gone on from `n`. Where `run` breaks off by itself, the
counter may have given out before. -/
structure Carries (c : NormalGrammar α) (n : Nat) (run' : Trail Entry (β × Kept))
    (run : Trail Entry β) : Prop where
  forget : ∀ b, run.result = .ok b →
    (fun x => (x.1, x.2.entries)) <$> run' = run.countedFrom maxEntries n
  fits : ∀ b kept, run'.result = .ok (b, kept) → kept.shared.Fits c.size

namespace Carries

variable {run' : Trail Entry (β × Kept)} {run : Trail Entry β}

lemma pure (b : β) (hk : kept.shared.Fits c.size) :
    Carries c kept.entries (Pure.pure (b, kept)) (Pure.pure b) := by
  constructor
  · intro b' _
    rw [Trail.countedFrom_pure, map_pure]
  · intro b' kept' h
    obtain ⟨rfl, rfl⟩ := Prod.mk.inj (Except.ok.inj h)
    exact hk

/-- Where both break off, there is nothing to carry. -/
lemma of_errors {e e' : Fault} (h : run'.result = .error e') (h' : run.result = .error e) :
    Carries c n run' run := by
  constructor
  · intro b hb
    rw [h'] at hb
    cases hb
  · intro b kept hk
    rw [h] at hk
    cases hk

/-- What is kept is handed on from one run to the next. -/
lemma bind {f' : β × Kept → Trail Entry (γ × Kept)} {f : β → Trail Entry γ}
    (h : Carries c n run' run)
    (hf : ∀ b kept, kept.shared.Fits c.size → Carries c kept.entries (f' (b, kept)) (f b)) :
    Carries c n (run' >>= f') (run >>= f) := by
  constructor
  · intro d hd
    obtain ⟨b, hb, hd⟩ := Trail.bind_eq_ok.1 hd
    have hforget := h.forget b hb
    rw [Trail.countedFrom_bind, ← hforget, map_bind, bind_map_left]
    refine Trail.bind_congr fun x hx => (hf x.1 x.2 (h.fits _ _ hx)).forget d ?_
    -- both runs go on from the same value
    have hcounted : (run.countedFrom maxEntries n).result = .ok (x.1, x.2.entries) := by
      rw [← hforget]
      exact Trail.map_eq_ok.2 ⟨x, hx, rfl⟩
    obtain rfl : b = x.1 :=
      Except.ok.inj (hb.symm.trans (Trail.result_of_countedFrom hcounted))
    exact hd
  · intro b kept hk
    obtain ⟨x, hx, hk⟩ := Trail.bind_eq_ok.1 hk
    exact (hf x.1 x.2 (h.fits _ _ hx)).fits b kept hk

/-- What makes no entries comes first. -/
lemma after (x : Except Fault δ) {f' : δ → Trail Entry (β × Kept)} {f : δ → Trail Entry β}
    (h : ∀ d, x = .ok d → Carries c n (f' d) (f d)) :
    Carries c n (liftM x >>= f') (liftM x >>= f) := by
  cases x with
  | error e => exact .of_errors rfl rfl
  | ok d => exact h d rfl

lemma foldlM {f' : β × Kept → γ → Trail Entry (β × Kept)} {f : β → γ → Trail Entry β}
    (hf : ∀ b kept x, kept.shared.Fits c.size → Carries c kept.entries (f' (b, kept) x) (f b x))
    (xs : List γ) (b : β) (hk : kept.shared.Fits c.size) :
    Carries c kept.entries (xs.foldlM f' (b, kept)) (xs.foldlM f b) := by
  induction xs generalizing b kept with
  | nil => exact .pure b hk
  | cons x xs ih =>
    rw [List.foldlM_cons, List.foldlM_cons]
    exact (hf b kept x hk).bind fun b' kept' hk' => ih b' hk'

end Carries

/-! ### The loop -/

variable {cell : BitSet} {cells : Array BitSet} {input : List (Option Nat)}
  {row col after len : Nat}

end Chart

end Chomsky
