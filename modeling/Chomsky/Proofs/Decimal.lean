import Mathlib.Tactic.Common

/-!
Numbers in decimal can be read back off the front of a text, as long as no digit follows.
-/

namespace Chomsky.Decimal

variable {rest : List Char}

/-- The number in front of a text, and what follows it. -/
def natural (cs : List Char) : Nat × List Char :=
  (Nat.ofDigitChars 10 (cs.takeWhile Char.isDigit) 0, cs.dropWhile Char.isDigit)

@[simp] lemma snd_natural (cs : List Char) : (natural cs).2 = cs.dropWhile Char.isDigit := rfl

/-- A minus sign comes before the digits. -/
def integer (cs : List Char) : Int × List Char :=
  if cs.head? = some '-' then (-(natural cs.tail).1, (natural cs.tail).2)
  else ((natural cs).1, (natural cs).2)

lemma isDigit_of_mem_repr {n : Nat} {d : Char} (h : d ∈ n.repr.toList) : d.isDigit = true := by
  rw [Nat.toList_repr] at h
  exact Nat.isDigit_of_mem_toDigits (by decide) (by decide) h

lemma head?_repr (n : Nat) (cs : List Char) :
    ∃ d, (n.repr.toList ++ cs).head? = some d ∧ d.isDigit = true := by
  obtain ⟨d, ds, hds⟩ := List.exists_cons_of_ne_nil (show n.repr.toList ≠ [] by simp)
  exact ⟨d, by simp [hds], isDigit_of_mem_repr (n := n) (by simp [hds])⟩

lemma natural_append (n : Nat) (h : rest.head?.any Char.isDigit = false) :
    natural (n.repr.toList ++ rest) = (n, rest) := by
  have htake : rest.takeWhile Char.isDigit = [] := by cases rest <;> simp_all
  have hdrop : rest.dropWhile Char.isDigit = rest := by cases rest <;> simp_all
  rw [natural, List.takeWhile_append_of_pos fun d => isDigit_of_mem_repr,
    List.dropWhile_append_of_pos fun d => isDigit_of_mem_repr, htake, hdrop, List.append_nil,
    Nat.toList_repr, Nat.ofDigitChars_ten_toDigits]

lemma integer_minus (cs : List Char) :
    integer ('-' :: cs) = (-((natural cs).1 : Int), (natural cs).2) := if_pos rfl

lemma integer_append (i : Int) (h : rest.head?.any Char.isDigit = false) :
    integer (i.repr.toList ++ rest) = (i, rest) := by
  cases i with
  | ofNat n =>
    have hrepr : (Int.ofNat n).repr = n.repr := rfl
    -- no digit is a sign
    have hsign : (n.repr.toList ++ rest).head? ≠ some '-' := fun hsign => by
      obtain ⟨d, hd, hdigit⟩ := head?_repr n rest
      obtain rfl : d = '-' := Option.some.inj (hd.symm.trans hsign)
      simp at hdigit
    rw [hrepr, integer, if_neg hsign, natural_append n h]
    rfl
  | negSucc n =>
    have hrepr : (Int.negSucc n).repr = "-" ++ n.succ.repr := rfl
    have hlist : ("-" ++ n.succ.repr).toList = '-' :: n.succ.repr.toList := String.toList_append
    rw [hrepr, hlist, List.cons_append, integer_minus, natural_append n.succ h]
    rfl

lemma natural_repr (n : Nat) : natural n.repr.toList = (n, []) := by
  rw [← List.append_nil n.repr.toList]
  exact natural_append n rfl

lemma integer_repr (i : Int) : integer i.repr.toList = (i, []) := by
  rw [← List.append_nil i.repr.toList]
  exact integer_append i rfl

end Chomsky.Decimal
