import Chomsky.Fault

/-!
Computations that leave a trail: a list of records in the order in which they were made, and a
result or a fault. The records made before a fault are kept.
-/

namespace Chomsky

structure Trail (ρ α : Type) where
  records : List ρ
  result : Except Fault α

namespace Trail

variable {ρ σ α β γ : Type}

@[inline] def bind (x : Trail ρ α) (f : α → Trail ρ β) : Trail ρ β :=
  match x.result with
  | .error e => ⟨x.records, .error e⟩
  | .ok a =>
    let y := f a
    ⟨x.records ++ y.records, y.result⟩

instance : Monad (Trail ρ) where
  pure a := ⟨[], .ok a⟩
  bind := Trail.bind

@[inline] def record (r : ρ) : Trail ρ Unit := ⟨[r], .ok ()⟩

@[inline] def fault (e : Fault) : Trail ρ α := ⟨[], .error e⟩

/-- A result that leaves no records. -/
@[inline] def ofExcept (x : Except Fault α) : Trail ρ α := ⟨[], x⟩

instance : MonadLift (Except Fault) (Trail ρ) where
  monadLift := ofExcept

/-- With a counter of the records that has no number past `limit`: the record after that is still
made, and then the computation breaks off. -/
def counted (limit : Nat) (x : Trail ρ α) : Trail ρ α :=
  if x.records.length ≤ limit then x
  else ⟨x.records.take (limit + 1), .error .counterFull⟩

/-- Reports something else for each record, or nothing. -/
def reportAs (f : ρ → List σ) (x : Trail ρ α) : Trail σ α := ⟨x.records.flatMap f, x.result⟩

@[ext] theorem ext {x y : Trail ρ α} (h : x.records = y.records) (h' : x.result = y.result) :
    x = y := by
  cases x; cases y; simp_all

@[simp] theorem records_pure (a : α) : (pure a : Trail ρ α).records = [] := rfl

@[simp] theorem result_pure (a : α) : (pure a : Trail ρ α).result = .ok a := rfl

@[simp] theorem mk_ok_bind (rs : List ρ) (a : α) (f : α → Trail ρ β) :
    (⟨rs, .ok a⟩ : Trail ρ α) >>= f = ⟨rs ++ (f a).records, (f a).result⟩ := rfl

@[simp] theorem mk_error_bind (rs : List ρ) (e : Fault) (f : α → Trail ρ β) :
    (⟨rs, .error e⟩ : Trail ρ α) >>= f = ⟨rs, .error e⟩ := rfl

theorem bind_of_ok {x : Trail ρ α} {a : α} (h : x.result = .ok a) (f : α → Trail ρ β) :
    x >>= f = ⟨x.records ++ (f a).records, (f a).result⟩ := by
  cases x; cases h; rfl

theorem bind_of_error {x : Trail ρ α} {e : Fault} (h : x.result = .error e)
    (f : α → Trail ρ β) : x >>= f = ⟨x.records, .error e⟩ := by
  cases x; cases h; rfl

theorem map_id (x : Trail ρ α) : id <$> x = x := by
  rcases x with ⟨rs, _ | a⟩ <;> simp [Functor.map, Trail.bind]

theorem bind_assoc (x : Trail ρ α) (f : α → Trail ρ β) (g : β → Trail ρ γ) :
    x >>= f >>= g = x >>= fun a => f a >>= g := by
  rcases x with ⟨rs, _ | a⟩
  · rfl
  · simp only [mk_ok_bind]
    rcases f a with ⟨ss, _ | b⟩ <;> simp

instance : LawfulMonad (Trail ρ) :=
  LawfulMonad.mk' (Trail ρ) map_id (fun _ _ => rfl) bind_assoc

/-- A run that succeeds splits into the runs of its two parts. -/
theorem bind_eq_ok {x : Trail ρ α} {f : α → Trail ρ β} {b : β} :
    (x >>= f).result = .ok b ↔ ∃ a, x.result = .ok a ∧ (f a).result = .ok b := by
  rcases x with ⟨rs, _ | a⟩ <;> simp

end Trail

end Chomsky
