import Chomsky.Ident
import Chomsky.Proofs.Decimal

/-!
Printed identities can be read back. The first character of a text tells the two kinds of created
symbols from each other and from names: a name that starts like one of them, or with the guard, has
the guard before it. So no two identities are printed alike.
-/

namespace Chomsky.Ident

open Function

variable {α β : Type}

def map (f : α → β) : Ident α → Ident β
  | user a => user (f a)
  | synthetic n => synthetic n
  | start n => start n

lemma map_injective {f : α → β} (h : Injective f) : Injective (map f) := by
  intro x y hxy
  cases x <;> cases y <;> simp only [map, user.injEq, synthetic.injEq, start.injEq,
    reduceCtorEq] at hxy ⊢
  · exact h hxy
  · exact hxy
  · exact hxy

/-- What a text stands for. A guard belongs to the name that follows it. -/
def ofText (s : String) : Ident String :=
  match s.toList with
  | '~' :: ds => synthetic (Decimal.natural ds).1
  | '^' :: ds => start (Decimal.natural ds).1
  | '\\' :: cs => user (String.ofList cs)
  | _ => user s

lemma ofText_guarded (s : String) : ofText (guarded s) = user s := by
  unfold guarded
  split
  · have hlist : ("\\" ++ s).toList = '\\' :: s.toList := String.toList_append
    rw [ofText, hlist]
    exact congrArg user String.ofList_toList
  · next hs =>
    unfold ofText
    -- a text that starts with a reserved character would have been guarded
    split
    · next h => simp [h, isReserved] at hs
    · next h => simp [h, isReserved] at hs
    · next h => simp [h, isReserved] at hs
    · rfl

theorem ofText_text (x : Ident String) : ofText (text x) = x := by
  cases x with
  | user s => exact ofText_guarded s
  | synthetic n =>
    have hlist : ("~" ++ n.repr).toList = '~' :: n.repr.toList := String.toList_append
    rw [ofText, text, hlist]
    exact congrArg (synthetic ·.1) (Decimal.natural_repr n)
  | start n =>
    have hlist : ("^" ++ n.repr).toList = '^' :: n.repr.toList := String.toList_append
    rw [ofText, text, hlist]
    exact congrArg (start ·.1) (Decimal.natural_repr n)

/-- Other names are printed by their texts. -/
lemma text_map [Label α] (x : Ident α) : text (x.map Label.text) = text x := by
  cases x <;> rfl

lemma text_injective_of_label [Label α] (h : Injective (Label.text : α → String)) :
    Injective (text : Ident α → String) := by
  intro x y hxy
  rw [← text_map x, ← text_map y] at hxy
  exact map_injective h (LeftInverse.injective ofText_text hxy)

/-- **No two identities are printed alike**, whether their names are texts, which may look like any
printed form, or integers. -/
theorem text_injective : Injective (text : Ident String → String) ∧
    Injective (text : Ident Int64 → String) := by
  constructor
  · exact text_injective_of_label injective_id
  · refine text_injective_of_label fun i j h => Int64.toInt_inj.1 ?_
    have hread := congrArg (fun s : String => (Decimal.integer s.toList).1) h
    simpa only [Label.text, Decimal.integer_repr] using hread

/-- Names that look like created symbols, or like guarded names. -/
example : text (user "~0") = "\\~0" ∧ text (synthetic 0 : Ident String) = "~0" ∧
    text (user "\\~0") = "\\\\~0" := by decide

end Chomsky.Ident
