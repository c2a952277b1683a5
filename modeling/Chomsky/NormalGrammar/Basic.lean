import Chomsky.BitSet
import Chomsky.Fault
import Chomsky.Ident
import Chomsky.Width

/-!
Grammars in Chomsky normal form, as a parser reads them: every rule is a terminal or a pair, each
symbol has a tag, and the parents of a symbol form a bit set. A grammar read from bytes may
contradict itself, so each question looks only at the part that answers it.
-/

namespace Chomsky

inductive NormalRule where
  | terminal (t : Nat)
  | pair (left right : Nat)
  deriving DecidableEq, Repr

structure NormalGrammar (α : Type) where
  width : Width
  ids : List (Ident α)
  tags : Array (Tag α)
  terminals : BitSet
  rules : Array (List NormalRule)
  parents : Array BitSet
  start : Nat
  deriving DecidableEq

namespace NormalGrammar

variable {α : Type}

/-- The number of symbols is the number of tags, as an index. -/
def size (c : NormalGrammar α) : Nat := c.width.wrap c.tags.size

def indices (c : NormalGrammar α) : List Nat :=
  (List.range c.tags.size).map c.width.wrap

def index? [DecidableEq α] (c : NormalGrammar α) (name : α) : Option Nat :=
  (c.ids.findIdx? (· = .user name)).map c.width.wrap

def ident (c : NormalGrammar α) (i : Nat) : Except Fault (Ident α) := required c.ids[i]?

def tag (c : NormalGrammar α) (i : Nat) : Except Fault (Tag α) := required c.tags[i]?

def isRoot (c : NormalGrammar α) (i : Nat) : Except Fault Bool :=
  (c.tag i).map Tag.isRoot

def isTerminal (c : NormalGrammar α) (i : Nat) : Except Fault Bool := c.terminals.get i

def rulesOf (c : NormalGrammar α) (i : Nat) : Except Fault (List NormalRule) :=
  required c.rules[i]?

def hasRule (c : NormalGrammar α) (parent : Nat) (rule : NormalRule) : Except Fault Bool :=
  (c.rulesOf parent).map (·.any (· = rule))

def ruleCount (c : NormalGrammar α) : Nat := c.rules.toList.flatten.length

def parentsOf (c : NormalGrammar α) (i : Nat) : Except Fault BitSet := required c.parents[i]?

/-- The symbols that are parents of both, written over what `out` held. -/
def sharedParentsInto (c : NormalGrammar α) (left right : Nat) (out : BitSet) :
    Except Fault BitSet :=
  if out.size = c.size then do
    let ls ← out.clear.union (← c.parentsOf left)
    ls.inter (← c.parentsOf right)
  else .error .sizeMismatch

def sharedParents (c : NormalGrammar α) (left right : Nat) : Except Fault BitSet :=
  c.sharedParentsInto left right (BitSet.empty c.size)

end NormalGrammar

/-- All that a grammar says of one symbol. -/
structure NormalSymbol (α : Type) where
  id : Ident α
  isTerminal : Bool
  rules : List NormalRule
  parents : List Nat
  tag : Tag α

def NormalGrammar.view {α : Type} (c : NormalGrammar α) (i : Nat) :
    Except Fault (NormalSymbol α) := do
  let id ← c.ident i
  let isTerminal ← c.isTerminal i
  let rules ← c.rulesOf i
  let parents ← (← c.parentsOf i).toList
  let tag ← c.tag i
  pure { id, isTerminal, rules, parents, tag }

end Chomsky
