import Mathlib.Logic.Relation
import Chomsky.Tree

/-!
What grammars generate, said without normalisation or a parser: the words that a symbol derives,
the parse trees of a word, and what a rule stands for once created symbols are replaced. Grammars
under construction and grammars in normal form are both read as rules for symbols.
-/

namespace Chomsky

/-! ### Derivations

The usual relation on lists of symbols: a symbol gives way to the members of one of its rules. -/

/-- Which lists may take the place of a symbol. -/
abbrev RuleSet := Nat → List Nat → Prop

inductive RuleSet.Produces (R : RuleSet) : List Nat → List Nat → Prop where
  | replace {p : Nat} {r : List Nat} (before after : List Nat) (h : R p r) :
    Produces R (before ++ p :: after) (before ++ r ++ after)

/-- A list of terminals that comes from the symbol `p`. -/
def RuleSet.Derives (R : RuleSet) (terminal : Nat → Prop) (p : Nat) (w : List Nat) : Prop :=
  Relation.ReflTransGen R.Produces [p] w ∧ ∀ t ∈ w, terminal t

variable {α : Type}

def Grammar.ruleSet (g : Grammar α) : RuleSet := fun p r => r ∈ g.rules p

def Grammar.Derives (g : Grammar α) (p : Nat) (w : List Nat) : Prop :=
  g.ruleSet.Derives (g.isTerminal · = true) p w

def NormalRule.members : NormalRule → List Nat
  | .terminal t => [t]
  | .pair l r => [l, r]

def NormalGrammar.ruleSet (c : NormalGrammar α) : RuleSet :=
  fun p r => ∃ rule, c.hasRule p rule = .ok true ∧ rule.members = r

def NormalGrammar.Derives (c : NormalGrammar α) (p : Nat) (w : List Nat) : Prop :=
  c.ruleSet.Derives (c.isTerminal · = .ok true) p w

/-! ### Parse trees

Trees that follow the rules at every node and whose leaves are the positions of a word from left to
right. -/

mutual
/-- Every node has a rule for its children, and every leaf is a terminal. -/
def Tree.Follows (R : RuleSet) (terminal : Nat → Prop) : Tree → Prop
  | .leaf t _ => terminal t
  | .node s ts => R s (ts.map Tree.symbol) ∧ AllFollow R terminal ts

def Tree.AllFollow (R : RuleSet) (terminal : Nat → Prop) : List Tree → Prop
  | [] => True
  | t :: ts => Follows R terminal t ∧ AllFollow R terminal ts
end

mutual
/-- The terminals from left to right, each with its position. -/
def Tree.places : Tree → List (Nat × Nat)
  | .leaf t p => [(t, p)]
  | .node _ ts => placesOf ts

def Tree.placesOf : List Tree → List (Nat × Nat)
  | [] => []
  | t :: ts => places t ++ placesOf ts
end

def Grammar.Parses (g : Grammar α) (w : List Nat) (t : Tree) : Prop :=
  t.symbol = g.start ∧ t.Follows g.ruleSet (g.isTerminal · = true) ∧ t.places = w.zipIdx

/-! ### Rules without created symbols -/

/-- `Expands fresh rules ms u`: replacing fresh members by the members of their rules leads from
`ms` to `u`, in which none is fresh. -/
inductive Expands (fresh : Nat → Prop) (rules : Nat → List (List Nat)) :
    List Nat → List Nat → Prop where
  | nil : Expands fresh rules [] []
  | keep {m : Nat} {ms u : List Nat} (h : ¬fresh m) (rest : Expands fresh rules ms u) :
    Expands fresh rules (m :: ms) (m :: u)
  | unfold {m : Nat} {r ms u v : List Nat} (h : fresh m) (hr : r ∈ rules m)
    (first : Expands fresh rules r u) (rest : Expands fresh rules ms v) :
    Expands fresh rules (m :: ms) (u ++ v)

namespace Grammar

def UnitStep (g : Grammar α) (p q : Nat) : Prop := [q] ∈ g.rules p ∧ g.isTerminal q = false

/-- The rules of `p`, and of what it reaches through unit rules, that are no unit rules. -/
def ProperRule (g : Grammar α) (p : Nat) (r : List Nat) : Prop :=
  ∃ q, Relation.ReflTransGen g.UnitStep p q ∧ r ∈ g.rules q ∧ g.isUnitRule r = false

/-- Synthetic symbols from position `n` on. -/
def FreshFrom (g : Grammar α) (n i : Nat) : Prop :=
  n ≤ i ∧ ∃ s k, g.symbols[i]? = some s ∧ s.id = .synthetic k

/-- What a rule of `p` stands for once the synthetic symbols from position `n` on are replaced. -/
def ExpandedRule (g : Grammar α) (n p : Nat) (u : List Nat) : Prop :=
  ∃ r ∈ g.rules p, Expands (g.FreshFrom n) g.rules r u

end Grammar

end Chomsky
