import Chomsky.Grammar.Rules
import Chomsky.NormalGrammar.Snapshot

/-!
Normalisation: passes over the grammar until all rules are normal and the start symbol occurs in
none of them. A pass has four steps: the start symbol, terminals beside other members, long rules,
and unit rules. The grammar is changed in place, and a snapshot of the result is given out.
-/

namespace Chomsky.Grammar

variable {α : Type}

section Rewriting

variable [DecidableEq α]

/-! ### The start symbol -/

/-- A start symbol that occurs in a rule gets a new symbol above it, with the old start as its only
rule. -/
def isolateStart (g : Grammar α) : Trail Record (Grammar α) :=
  if g.startOccurs then do
    let (new, g') ← g.pushStart
    let g' ← g'.insertRule new [g.start]
    Trail.record (.newStart new)
    pure { g' with start := new }
  else pure g

end Rewriting

/-! ### Terminals

In a rule with more than one member, each occurrence of a terminal gives way to a new symbol of its
own, which has that terminal as its only rule. -/

def needsShield (g : Grammar α) (rule : List Nat) : Bool :=
  1 < rule.length && rule.any g.isTerminal

section Rewriting

variable [DecidableEq α]

/-- A new symbol with the terminal `t` as its only rule. -/
def pushStandIn (g : Grammar α) (t : Nat) : Trail Record (Nat × Grammar α) := do
  let (s, g) ← g.pushSynthetic
  let g ← g.insertRule s [t]
  pure (s, g)

def shieldMembers (g : Grammar α) : List Nat → Trail Record (List Nat × Grammar α)
  | [] => pure ([], g)
  | m :: ms => do
    let (m', g) ← if g.isTerminal m then g.pushStandIn m else pure (m, g)
    let (ms', g) ← g.shieldMembers ms
    pure (m' :: ms', g)

def shieldRule (parent : Nat) (g : Grammar α) (rule : List Nat) :
    Trail Record (Grammar α) := do
  let (rule', g) ← g.shieldMembers rule
  let g ← g.insertRule parent rule'
  g.removeRule parent rule

def shieldRulesOf (g : Grammar α) (parent : Nat) : Trail Record (Grammar α) :=
  ((g.rules parent).filter g.needsShield).foldlM (shieldRule parent) g

def shieldTerminals (g : Grammar α) : Trail Record (Grammar α) :=
  g.indices.foldlM shieldRulesOf g

/-! ### Long rules

A rule with more than two members becomes a chain of pairs, in which each new symbol stands for the
members that follow. -/

/-- Gives `head` the members, as pairs along new symbols. -/
def insertChain (g : Grammar α) (head : Nat) : List Nat → Trail Record (Grammar α)
  | m :: m' :: m'' :: ms => do
    let (next, g) ← g.pushSynthetic
    let g ← g.insertRule head [m, next]
    g.insertChain next (m' :: m'' :: ms)
  | rule => g.insertRule head rule

def splitRule (parent : Nat) (g : Grammar α) (rule : List Nat) :
    Trail Record (Grammar α) := do
  let g ← g.insertChain parent rule
  g.removeRule parent rule

def splitRulesOf (g : Grammar α) (parent : Nat) : Trail Record (Grammar α) :=
  ((g.rules parent).filter (2 < ·.length)).foldlM (splitRule parent) g

def splitLongRules (g : Grammar α) : Trail Record (Grammar α) :=
  g.indices.foldlM splitRulesOf g

end Rewriting

/-! ### Unit rules

A non-terminal takes over the other rules of all non-terminals that it reaches through unit rules,
and then loses its unit rules. What is taken over is settled for all symbols before the first
change. -/

/-- The non-terminals that a symbol has as unit rules. -/
def unitMembers (g : Grammar α) (i : Nat) : List Nat :=
  ((g.rules i).filter g.isUnitRule).flatten

/-- Walks the unit rules from the symbols to visit, the next of which comes first. Each symbol
is found once, so as many steps as there are symbols, and one for where the walk began, are
enough. -/
def unitWalk (g : Grammar α) : Nat → List Nat → List Nat → List Nat
  | 0, found, _ => found
  | _ + 1, found, [] => found
  | n + 1, found, i :: todo =>
    let new := (g.unitMembers i).filter (· ∉ found)
    unitWalk g n (found ++ new) (new.reverse ++ todo)

/-- The non-terminals reached from a symbol through one or more unit rules. -/
def unitTargets (g : Grammar α) (i : Nat) : List Nat :=
  g.unitWalk (g.symbols.length + 1) [] [i]

def properRules (g : Grammar α) (i : Nat) : List (List Nat) :=
  (g.rules i).filter (!g.isUnitRule ·)

/-- What a symbol takes over. -/
def inheritedRules (g : Grammar α) (i : Nat) : List (List Nat) :=
  (g.unitTargets i).flatMap g.properRules

/-- The rules are put in before the unit rules go, so that a member of both kinds of rule does
not lose its parent in between. -/
def replaceUnits (g : Grammar α) (i : Nat) (rules : List (List Nat)) :
    Trail Record (Grammar α) := do
  let units := (g.rules i).filter g.isUnitRule
  let g ← rules.foldlM (insertRule · i) g
  units.foldlM (removeRule · i) g

def inlineUnits (g : Grammar α) : Trail Record (Grammar α) :=
  let heirs := g.indices.filter fun i => !(g.unitTargets i).isEmpty
  (heirs.map fun i => (i, g.inheritedRules i)).foldlM (fun g p => g.replaceUnits p.1 p.2) g

/-! ### Passes -/

/-- No step can deal with an empty rule. -/
def checkNonempty (g : Grammar α) : Except Fault Unit :=
  if g.symbols.any fun s => s.rules.any (·.isEmpty) then .error .emptyRule else .ok ()

variable [DecidableEq α]

def pass (g : Grammar α) : Trail Record (Grammar α) := do
  let g ← g.isolateStart
  let g ← g.shieldTerminals
  let g ← g.splitLongRules
  g.checkNonempty
  g.inlineUnits

def isSettled (g : Grammar α) : Bool := g.isNormal && !g.startOccurs

/-- At most `n` further passes after `done` passes; gives the number of all passes. -/
def passes (g : Grammar α) : Nat → Nat → Trail Record (Nat × Grammar α)
  | 0, done => pure (done, g)
  | n + 1, done =>
    if g.isSettled then pure (done, g)
    else do
      Trail.record (.pass (done + 1) g.symbols.length g.ruleCount)
      let g ← g.pass
      g.passes n (done + 1)

/-- More passes than any grammar takes: the first one settles it. -/
def passBound (g : Grammar α) : Nat := g.ruleCount + 2

def normalize (g : Grammar α) : Trail Record (Grammar α × NormalGrammar α) := do
  let (done, g) ← g.passes g.passBound 0
  Trail.record (.normalized done g.symbols.length g.ruleCount)
  let c ← g.snapshot
  pure (g, c)

end Chomsky.Grammar
