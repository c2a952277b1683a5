import Chomsky.Normalize

/-!
Two plain accounts of normalisation: how many symbols a grammar has once it is normal, and the walk
along unit rules as a loop, rule by rule, whose turns nothing bounds.
-/

namespace Chomsky

variable {α : Type}

/-! ### Symbols that rules need -/

namespace Grammar

/-- The symbols that a rule needs: one for each terminal beside other members, and one for each
member past the second. -/
def ruleNeed (g : Grammar α) (rule : List Nat) : Nat :=
  if 1 < rule.length then rule.countP g.isTerminal + (rule.length - 2) else 0

def need (g : Grammar α) : Nat :=
  g.symbols.length + (if g.startOccurs then 1 else 0) +
    ((g.symbols.flatMap (·.rules)).map g.ruleNeed).foldr (· + ·) 0

end Grammar

/-! ### The walk along unit rules

A symbol comes off the stack, and what its unit rules lead to is put on the stack when it is seen
for the first time. -/

/-- What was seen so far, and the stack of what is still to visit, with its top in front. -/
structure Visit where
  seen : List Nat
  stack : List Nat

namespace Visit

/-- The symbol where a visit starts counts as seen only when a rule leads back to it. -/
def start (p : Nat) : Visit := ⟨[], [p]⟩

def see (v : Visit) (m : Nat) : Visit :=
  if m ∈ v.seen then v else ⟨OrderedSet.insert v.seen m, m :: v.stack⟩

end Visit

namespace Grammar

def followRule (g : Grammar α) (v : Visit) : List Nat → Visit
  | [m] => if g.isTerminal m then v else v.see m
  | _ => v

/-- One turn for a symbol that has come off the stack. -/
def followRules (g : Grammar α) (v : Visit) (i : Nat) : Visit :=
  (g.rules i).foldl g.followRule v

/-- `g.EndsIn v n found`: from `v` on, the loop makes `n` turns, and then the stack is empty and
`found` was seen. -/
inductive EndsIn (g : Grammar α) : Visit → Nat → List Nat → Prop where
  | done {seen : List Nat} : EndsIn g ⟨seen, []⟩ 0 seen
  | turn {seen stack found : List Nat} {i n : Nat}
    (rest : EndsIn g (g.followRules ⟨seen, stack⟩ i) n found) :
    EndsIn g ⟨seen, i :: stack⟩ (n + 1) found

end Grammar

end Chomsky
