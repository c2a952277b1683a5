import Mathlib.Tactic.Common
import Chomsky.Trail

/-!
Results of computations with a trail, what a loop over a list keeps, and what a counter of the
records changes.
-/

namespace Chomsky.Trail

variable {ρ α β : Type}

@[simp] lemma result_lift (x : Except Fault α) : (liftM x : Trail ρ α).result = x := rfl

@[simp] lemma result_record (r : ρ) : (record r).result = .ok () := rfl

@[simp] lemma result_fault (e : Fault) : (fault e : Trail ρ α).result = .error e := rfl

lemma result_bind (x : Trail ρ α) (f : α → Trail ρ β) :
    (x >>= f).result = x.result >>= fun a => (f a).result := by
  rcases x with ⟨rs, _ | a⟩ <;> rfl

@[simp] lemma lift_ok_bind (a : α) (f : α → Trail ρ β) :
    (liftM (Except.ok a : Except Fault α) : Trail ρ α) >>= f = f a := rfl

lemma record_bind_eq_ok {r : ρ} {f : Unit → Trail ρ α} {a : α} :
    (record r >>= f).result = .ok a ↔ (f ()).result = .ok a := by
  rw [bind_eq_ok]
  exact ⟨fun ⟨_, _, h⟩ => h, fun h => ⟨(), rfl, h⟩⟩

lemma map_eq_ok {x : Trail ρ α} {f : α → β} {b : β} :
    (f <$> x).result = .ok b ↔ ∃ a, x.result = .ok a ∧ f a = b := by
  rw [map_eq_pure_bind, bind_eq_ok]
  simp

lemma result_foldlM (f : β → α → Trail ρ β) (xs : List α) (b : β) :
    (xs.foldlM f b).result = xs.foldlM (fun b x => (f b x).result) b := by
  induction xs generalizing b with
  | nil => rfl
  | cons x xs ih =>
    rw [List.foldlM_cons, List.foldlM_cons, result_bind]
    simp only [ih]

/-- What every step of a loop keeps, the loop keeps. -/
lemma foldlM_keeps (I : β → Prop) {f : β → α → Trail ρ β} {xs : List α}
    (hf : ∀ b, ∀ x ∈ xs, ∀ b', I b → (f b x).result = .ok b' → I b') {b b' : β} (hb : I b)
    (h : (xs.foldlM f b).result = .ok b') : I b' := by
  induction xs generalizing b with
  | nil =>
    obtain rfl : b = b' := by simpa [List.foldlM] using h
    exact hb
  | cons x xs ih =>
    rw [List.foldlM_cons, bind_eq_ok] at h
    obtain ⟨c, hc, h⟩ := h
    exact ih (fun b y hy => hf b y (List.mem_cons_of_mem x hy))
      (hf b x List.mem_cons_self c hb hc) h

/-- What one step brings about and every step keeps, holds after the loop. -/
lemma foldlM_reaches (J I : β → Prop) {f : β → α → Trail ρ β} {xs : List α} {x : α} (hx : x ∈ xs)
    (hJ : ∀ b, ∀ y ∈ xs, ∀ b', J b → (f b y).result = .ok b' → J b')
    (hI : ∀ b, ∀ y ∈ xs, ∀ b', J b → I b → (f b y).result = .ok b' → I b')
    (hf : ∀ b b', J b → (f b x).result = .ok b' → I b') {b b' : β} (hb : J b)
    (h : (xs.foldlM f b).result = .ok b') : I b' := by
  obtain ⟨ys, zs, rfl⟩ := List.append_of_mem hx
  rw [List.foldlM_append, bind_eq_ok] at h
  obtain ⟨c, hc, h⟩ := h
  rw [List.foldlM_cons, bind_eq_ok] at h
  obtain ⟨d, hd, h⟩ := h
  have hJc : J c := foldlM_keeps J (fun b y hy => hJ b y (by simp [hy])) hb hc
  have hkeep := foldlM_keeps (fun b => J b ∧ I b) (fun b y hy b' hb hbb' =>
    ⟨hJ b y (by simp [hy]) b' hb.1 hbb', hI b y (by simp [hy]) b' hb.1 hb.2 hbb'⟩)
    ⟨hJ c x hx d hJc hd, hf c d hJc hd⟩ h
  exact hkeep.2

/-! ### Breaking off -/

lemma bind_eq_error {x : Trail ρ α} {f : α → Trail ρ β} {e : Fault} :
    (x >>= f).result = .error e ↔
      x.result = .error e ∨ ∃ a, x.result = .ok a ∧ (f a).result = .error e := by
  rcases x with ⟨rs, _ | a⟩ <;> simp

/-- A loop that breaks off has gone through some first elements and breaks off at the next. -/
lemma foldlM_eq_error {f : β → α → Trail ρ β} {xs : List α} {b : β} {e : Fault}
    (h : (xs.foldlM f b).result = .error e) : ∃ ys x zs c, xs = ys ++ x :: zs ∧
      (ys.foldlM f b).result = .ok c ∧ (f c x).result = .error e := by
  induction xs generalizing b with
  | nil => cases h
  | cons x xs ih =>
    rw [List.foldlM_cons, bind_eq_error] at h
    obtain h | ⟨c, hc, h⟩ := h
    · exact ⟨[], x, xs, b, rfl, rfl, h⟩
    · obtain ⟨ys, y, zs, d, rfl, hd, h⟩ := ih h
      refine ⟨x :: ys, y, zs, d, rfl, ?_, h⟩
      rw [List.foldlM_cons, bind_eq_ok]
      exact ⟨c, hc, hd⟩

/-- Only what follows a result matters. -/
lemma bind_congr {x : Trail ρ α} {f f' : α → Trail ρ β}
    (h : ∀ a, x.result = .ok a → f a = f' a) : x >>= f = x >>= f' := by
  rcases x with ⟨rs, _ | a⟩
  · rfl
  · rw [mk_ok_bind, mk_ok_bind, h a rfl]

/-! ### Counting the records -/

variable {n : Nat} {x : Trail ρ α}

lemma counted_of_le (h : x.records.length ≤ n) : x.counted n = x := if_pos h

lemma counted_eq_ok {a : α} :
    (x.counted n).result = .ok a ↔ x.result = .ok a ∧ x.records.length ≤ n := by
  unfold counted
  split <;> simp [*]

/-- The counter gives out before anything that would happen later. -/
lemma counted_eq_error {e : Fault} : (x.counted n).result = .error e ↔
    e = .counterFull ∧ n < x.records.length ∨ x.result = .error e ∧ x.records.length ≤ n := by
  unfold counted
  split
  · next h => simp [h, Nat.not_lt.2 h]
  · next h => simp [h, Nat.lt_of_not_le h, eq_comm]

end Chomsky.Trail
