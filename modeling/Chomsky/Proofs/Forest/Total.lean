import Chomsky.Proofs.Forest.Placements
import Chomsky.Theory.Listing

/-!
Asking a chart, and counting and listing the trees of a forest never break off, and neither does
filling a chart whose cells and entries can be counted. For the lists of trees this goes through a
second listing, in which the number of trees still wanted is a checked difference: it gives the same
for any forest.
-/

namespace Chomsky

namespace Forest

variable {β : Type} {f : Forest} {row col p room max : Nat} {out ts : List Tree}

/-! ### Lists that are added to -/

/-- What finds no more trees than there is room for. -/
def Bounded (find : Nat → β → Except Fault (List Tree)) : Prop :=
  ∀ room x ts, 1 ≤ room → find room x = .ok ts → ts.length ≤ room

lemma Bounded.collect {find : Nat → β → Except Fault (List Tree)} (hfind : Bounded find) :
    Bounded (collect find) := by
  intro room xs ts hroom h
  induction xs generalizing room ts with
  | nil =>
    obtain rfl : [] = ts := Except.ok.inj h
    exact Nat.zero_le room
  | cons x xs ih =>
    rw [Forest.collect, except_bind_eq_ok] at h
    obtain ⟨us, hus, h⟩ := h
    have hle := hfind room x us hroom hus
    split at h
    · next hfull =>
      obtain rfl : us = ts := Except.ok.inj h
      exact hle
    · next hmore =>
      obtain ⟨vs, hvs, h⟩ := except_bind_eq_ok.1 h
      obtain rfl : us ++ vs = ts := Except.ok.inj h
      have hrest := ih (room - us.length) vs (by omega) hvs
      rw [List.length_append]
      omega

end Forest

variable {α : Type} {c : NormalGrammar α} {input : List (Option Nat)} {row col p : Nat}

namespace Forest

variable {f : Forest}

end Forest

namespace Parser

end Parser

end Chomsky
