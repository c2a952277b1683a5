import Chomsky.Grammar.Edit

/-!
What requests say of the grammar they lead to, without the grammar: the tags of its symbols by the
requests alone, and its rules and start symbol by the records alone.
-/

namespace Chomsky

/-! ### Tags -/

/-- `g.LastTag es a t`: of the requests `es`, made of `g` one after the other, one that tags `a`
with `t` is granted, and none after it tags `a`. A name that is known stays known, so what comes
later would be granted as well. -/
def Grammar.LastTag {α : Type} [DecidableEq α] (g : Grammar α) (es : List (Edit α))
    (a t : α) : Prop :=
  ∃ before after g₁ g₂, es = before ++ .assignTag a t :: after ∧
    (g.attemptAll before).result = .ok g₁ ∧ g₁.assignTag a t = .ok g₂ ∧
    ∀ t', .assignTag a t' ∉ after

/-! ### The journal -/

/-- The rules of each symbol and the start symbol, as the records tell them. -/
structure Journal where
  rules : Nat → List (List Nat)
  start : Nat

namespace Journal

/-- Before the first record there are no rules. -/
def blank : Journal := ⟨fun _ => [], 0⟩

def setRules (j : Journal) (p : Nat) (rs : List (List Nat)) : Journal :=
  { j with rules := fun i => if i = p then rs else j.rules i }

/-- A rule that is taken out must be there. Records that are not about rules change nothing. -/
def enter (j : Journal) : Record → Option Journal
  | .adding p ms => some (j.setRules p (OrderedSet.insert (j.rules p) ms))
  | .removed p ms => if ms ∈ j.rules p then some (j.setRules p ((j.rules p).erase ms)) else none
  | .newStart n => some { j with start := n }
  | _ => some j

def replay (j : Journal) (rs : List Record) : Option Journal := rs.foldlM enter j

end Journal

end Chomsky
