import Chomsky.NormalGrammar.Basic
import Chomsky.Grammar.Build
import Chomsky.Tree

/-!
What may be asked in a session: changes and questions about a grammar, questions about its normal
form, words to recognise and parse, and questions about forests and trees.
-/

namespace Chomsky

inductive GrammarQuery (α : Type) where
  | text
  | ruleText (parent : Nat) (rule : List Nat)
  | size
  | ruleCount
  | start
  | indices
  | index (name : α)
  | ident (i : Nat)
  | isTerminal (i : Nat)
  | rules (i : Nat)
  | parents (i : Nat)
  | hasRule (parent : Nat) (rule : List Nat)
  | tag (i : Nat)
  | isNormal
  | startOccurs
  | dump

inductive NormalQuery (α : Type) where
  | text
  | size
  | ruleCount
  | start
  | indices
  | index (name : α)
  | ident (i : Nat)
  | tag (i : Nat)
  | isRoot (i : Nat)
  | isTerminal (i : Nat)
  | rules (i : Nat)
  | hasRule (parent : Nat) (rule : NormalRule)
  | parents (i : Nat)
  | sharedParents (left right : Nat)
  /-- Over a set of the given size that holds every number. -/
  | sharedParentsOver (left right size : Nat)
  | dump
  | bytes

/-- A word by the names of its symbols or by their indices. -/
inductive Word (α : Type) where
  | names (as : List α)
  | indices (is : List Nat)

/-- A symbol of the input of a chart. -/
inductive InputSymbol (α : Type) where
  | name (a : α)
  | index (i : Nat)
  | unknown

inductive ChartQuery where
  | whole
  | cell (row col : Nat)
  | contains (places : List (Nat × Nat × Nat))
  | entries

/-- What is shown of a tree. -/
inductive TreeForm where
  | whole | text | leaves | root

inductive ForestQuery where
  | summary
  | pointers (row col symbol : Nat)
  | trees (form : TreeForm)
  | treesUpTo (limit : Nat) (form : TreeForm)
  | bytes
  | treeBytes (limit : Nat)

inductive Command (α : Type) where
  | save (name : String)
  | restore (name : String)
  | declare (name : α) (terminal : Bool)
  | addRule (parent : α) (members : List α)
  | addRuleToStart (members : List α)
  | assignTag (name tag : α)
  /-- Declares non-terminals, then terminals, and adds rules, each a parent and its members. -/
  | build (nonterminals terminals : List α) (rules : List (α × List α))
  | normalize
  | grammar (q : GrammarQuery α)
  | normal (q : NormalQuery α)
  | loadNormal (bytes : List UInt8)
  | recognize (word : Word α)
  | parse (word : Word α)
  | parseTrees (names : List α) (maxTrees : Option Nat) (form : TreeForm)
  | chart (input : List (InputSymbol α)) (q : ChartQuery)
  | forest (q : ForestQuery)
  | loadForest (bytes : List UInt8)
  | loadTrees (bytes : List UInt8) (form : TreeForm)
  | tree (t : Tree)
  | showIdent (id : Ident α)
  | showTag (tag : Tag α)
  | showRejection (r : Rejection α)
  | wrap (n : Nat)

end Chomsky
