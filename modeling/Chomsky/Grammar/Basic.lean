import Chomsky.Fault
import Chomsky.Width
import Chomsky.Ident
import Chomsky.Ordered

/-!
Context-free grammars under construction. A grammar numbers its symbols in the order in which
they came; a non-terminal owns rules, which are nonempty lists of symbols, and each symbol
knows its parents, the symbols with a rule in which it occurs.
-/

namespace Chomsky

structure Symbol (α : Type) where
  id : Ident α
  isTerminal : Bool
  rules : List (List Nat) := []
  parents : List Nat := []
  tag : Option α := none

structure Grammar (α : Type) where
  width : Width
  symbols : List (Symbol α)
  start : Nat
  nextSynthetic : Nat := 0
  nextStart : Nat := 0

namespace Grammar

variable {α : Type}

/-- The number of symbols, as an index of this grammar's width. -/
def size (g : Grammar α) : Nat := g.width.wrap g.symbols.length

def indices (g : Grammar α) : List Nat :=
  (List.range g.symbols.length).map g.width.wrap

def symbol (g : Grammar α) (i : Nat) : Except Fault (Symbol α) :=
  required g.symbols[i]?

/-- Symbols that are not there are no terminals. -/
def isTerminal (g : Grammar α) (i : Nat) : Bool :=
  g.symbols[i]?.any (·.isTerminal)

/-- Symbols that are not there have no rules. -/
def rules (g : Grammar α) (i : Nat) : List (List Nat) :=
  (g.symbols[i]?.map (·.rules)).getD []

def parents (g : Grammar α) (i : Nat) : List Nat :=
  (g.symbols[i]?.map (·.parents)).getD []

def tag? (g : Grammar α) (i : Nat) : Option α :=
  g.symbols[i]?.bind (·.tag)

def ruleCount (g : Grammar α) : Nat :=
  (g.symbols.flatMap (·.rules)).length

def position? [DecidableEq α] (g : Grammar α) (id : Ident α) : Option Nat :=
  g.symbols.findIdx? (·.id = id)

/-- The symbol that the caller has named so. -/
def index? [DecidableEq α] (g : Grammar α) (name : α) : Option Nat :=
  (g.position? (.user name)).map g.width.wrap

/-- A rule is normal if it is one terminal or a pair of non-terminals. -/
def isNormalRule (g : Grammar α) : List Nat → Bool
  | [t] => g.isTerminal t
  | [l, r] => !g.isTerminal l && !g.isTerminal r
  | _ => false

def isNormal (g : Grammar α) : Bool :=
  g.symbols.all fun s => s.rules.all g.isNormalRule

/-- Whether the start symbol occurs in a rule. -/
def startOccurs (g : Grammar α) : Bool := !(g.parents g.start).isEmpty

/-- A unit rule consists of one non-terminal. -/
def isUnitRule (g : Grammar α) : List Nat → Bool
  | [m] => !g.isTerminal m
  | _ => false

end Grammar

end Chomsky
