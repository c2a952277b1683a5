import Chomsky.Forest

/-!
Recognising and parsing words, given by names or by symbol indices. What the grammar does not
know never matches.
-/

namespace Chomsky

structure Parser (α : Type) where
  grammar : NormalGrammar α
  /-- The greatest number of trees that `trees` gives. -/
  maxTrees : Option Nat := none

namespace Parser

variable {α : Type}

def resolve [DecidableEq α] (p : Parser α) (names : List α) : List (Option Nat) :=
  names.map p.grammar.index?

def resolveIndices (p : Parser α) (is : List Nat) : List (Option Nat) :=
  is.map fun i => if i < p.grammar.size then some i else none

def recognizeInput (p : Parser α) (input : List (Option Nat)) : Trail Record Bool := do
  let (chart, _) ← Chart.ofInput p.grammar input
  let accepted ← chart.accepts
  Trail.record (.verdict input.length accepted)
  pure accepted

def parseInput (p : Parser α) (input : List (Option Nat)) : Trail Record Forest := do
  let (chart, entries) ← Chart.ofInput p.grammar input
  let forest ← Forest.ofChart p.grammar chart entries
  Trail.record (.verdict input.length !forest.isEmpty)
  pure forest

def recognize [DecidableEq α] (p : Parser α) (names : List α) : Trail Record Bool :=
  p.recognizeInput (p.resolve names)

def recognizeIndices (p : Parser α) (is : List Nat) : Trail Record Bool :=
  p.recognizeInput (p.resolveIndices is)

def parse [DecidableEq α] (p : Parser α) (names : List α) : Trail Record Forest :=
  p.parseInput (p.resolve names)

def parseIndices (p : Parser α) (is : List Nat) : Trail Record Forest :=
  p.parseInput (p.resolveIndices is)

def trees [DecidableEq α] (p : Parser α) (names : List α) : Trail Record (List Tree) := do
  let forest ← p.parse names
  match p.maxTrees with
  | some limit => forest.treesUpTo limit
  | none => forest.trees

end Parser

namespace NormalGrammar

variable {α : Type} [DecidableEq α]

def recognize (c : NormalGrammar α) (names : List α) : Trail Record Bool :=
  Parser.recognize { grammar := c } names

def parse (c : NormalGrammar α) (names : List α) : Trail Record Forest :=
  Parser.parse { grammar := c } names

end NormalGrammar

end Chomsky
