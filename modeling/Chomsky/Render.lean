import Chomsky.Grammar.Basic
import Chomsky.NormalGrammar.Basic

/-!
The printed forms of grammars: a line for each rule in the order of the symbols, with terminals
between double quotes. In normal form the kind of the rule decides which members are quoted.
-/

namespace Chomsky

variable {α : Type} [Label α]

namespace Grammar

def renderMember (g : Grammar α) (i : Nat) : Except Fault String := do
  let s ← g.symbol i
  pure (if s.isTerminal then " \"" ++ s.id.text ++ "\"" else " " ++ s.id.text)

/-- Any rule may be printed, also one that the grammar does not have. -/
def renderRule (g : Grammar α) (parent : Nat) (rule : List Nat) : Except Fault String := do
  let s ← g.symbol parent
  let members ← rule.mapM g.renderMember
  pure (s.id.text ++ ":" ++ String.join members)

def render (g : Grammar α) : Except Fault String := do
  let lines ← g.indices.mapM fun i => do
    let rules ← (g.rules i).mapM (g.renderRule i)
    pure (String.join (rules.map (· ++ "\n")))
  pure (String.join lines)

end Grammar

namespace NormalGrammar

def nameText (c : NormalGrammar α) (i : Nat) : Except Fault String :=
  (c.ident i).map Ident.text

def renderRule (c : NormalGrammar α) (parent : Nat) (rule : NormalRule) :
    Except Fault String := do
  let p ← c.nameText parent
  match rule with
  | .terminal t => do
    let t ← c.nameText t
    pure (p ++ ": \"" ++ t ++ "\"\n")
  | .pair l r => do
    let l ← c.nameText l
    let r ← c.nameText r
    pure (p ++ ": " ++ l ++ " " ++ r ++ "\n")

def render (c : NormalGrammar α) : Except Fault String := do
  let lines ← c.indices.mapM fun i => do
    let rules ← c.rulesOf i
    let lines ← rules.mapM (c.renderRule i)
    pure (String.join lines)
  pure (String.join lines)

end NormalGrammar

end Chomsky
