/-!
Sets and maps as lists, in the order of first insertion. Putting in what is there does not move it,
and taking something out keeps the order of the rest.
-/

namespace Chomsky

/-! ### Sets as lists without repetitions -/

namespace OrderedSet

variable {α : Type} [DecidableEq α]

def insert (xs : List α) (x : α) : List α :=
  if x ∈ xs then xs else xs ++ [x]

def ofList (xs : List α) : List α :=
  xs.foldl insert []

@[simp] theorem mem_insert {xs : List α} {x y : α} : y ∈ insert xs x ↔ y ∈ xs ∨ y = x := by
  unfold insert
  split <;> simp_all

theorem nodup_insert {xs : List α} (h : xs.Nodup) (x : α) : (insert xs x).Nodup := by
  unfold insert
  split
  · exact h
  · simp only [List.nodup_append, h, List.nodup_cons, List.not_mem_nil, not_false_eq_true,
      List.nodup_nil, and_self, List.mem_cons, or_false, true_and]
    rintro a ha _ rfl rfl
    contradiction

theorem foldl_insert_of_nodup {xs ys : List α} (h : (xs ++ ys).Nodup) :
    ys.foldl insert xs = xs ++ ys := by
  induction ys generalizing xs with
  | nil => simp
  | cons y ys ih =>
    have hy : y ∉ xs := fun hy => (List.nodup_append.1 h).2.2 y hy y List.mem_cons_self rfl
    rw [List.foldl_cons, insert, if_neg hy, ih (by simpa using h), List.append_assoc]
    rfl

theorem ofList_of_nodup {xs : List α} (h : xs.Nodup) : ofList xs = xs :=
  foldl_insert_of_nodup (by simpa using h)

end OrderedSet

/-! ### Maps as lists of keys and values -/

namespace OrderedMap

variable {κ υ : Type} [DecidableEq κ]

def get? (m : List (κ × υ)) (k : κ) : Option υ :=
  (m.find? (·.1 = k)).map (·.2)

/-- Changes the value at a key, or puts in one for a key that is not there. -/
def alter (k : κ) (f : Option υ → υ) : List (κ × υ) → List (κ × υ)
  | [] => [(k, f none)]
  | (k', v) :: m => if k' = k then (k', f (some v)) :: m else (k', v) :: alter k f m

def ofList (ps : List (κ × υ)) : List (κ × υ) :=
  ps.foldl (fun m p => alter p.1 (fun _ => p.2) m) []

theorem get?_alter (m : List (κ × υ)) (k k' : κ) (f : Option υ → υ) :
    get? (alter k f m) k' = if k = k' then some (f (get? m k)) else get? m k' := by
  induction m with
  | nil => by_cases h : k = k' <;> simp [alter, get?, h]
  | cons p m ih =>
    obtain ⟨j, v⟩ := p
    unfold get? at ih ⊢
    by_cases hj : j = k
    · by_cases h : k = k' <;> simp_all [alter]
    · by_cases h : j = k'
      · subst h
        simp [alter, hj, Ne.symm hj]
      · simp [alter, hj, h, ih]

theorem alter_of_not_mem {m : List (κ × υ)} {k : κ} (h : k ∉ m.map (·.1)) (f : Option υ → υ) :
    alter k f m = m ++ [(k, f none)] := by
  induction m with
  | nil => rfl
  | cons p m ih =>
    have hk : p.1 ≠ k := fun hk => h (hk ▸ List.mem_cons_self)
    have hm : k ∉ m.map (·.1) := fun hm => h (List.mem_cons_of_mem _ hm)
    rw [alter, if_neg hk, ih hm, List.cons_append]

theorem foldl_alter_of_nodup {m ps : List (κ × υ)} (h : ((m ++ ps).map (·.1)).Nodup) :
    ps.foldl (fun m p => alter p.1 (fun _ => p.2) m) m = m ++ ps := by
  induction ps generalizing m with
  | nil => simp
  | cons p ps ih =>
    have hp : p.1 ∉ m.map (·.1) := fun hp => by
      rw [List.map_append, List.map_cons] at h
      exact (List.nodup_append.1 h).2.2 p.1 hp p.1 List.mem_cons_self rfl
    rw [List.foldl_cons, alter_of_not_mem hp, ih (by simpa using h), List.append_assoc]
    rfl

theorem ofList_of_nodup {ps : List (κ × υ)} (h : (ps.map (·.1)).Nodup) : ofList ps = ps :=
  foldl_alter_of_nodup (by simpa using h)

end OrderedMap

end Chomsky
