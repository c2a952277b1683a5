import Chomsky.Grammar.Basic
import Chomsky.Record
import Chomsky.Trail

/-!
The primitive changes to a grammar: a symbol is put at the end, a rule is put in or taken out
with the parents of its members kept in step. All other changes are made of these.
-/

namespace Chomsky

variable {α : Type}

namespace Symbol

/-- The symbol at position `i` after `rule` was put in at `parent`. -/
def withRule (parent : Nat) (rule : List Nat) (i : Nat) (s : Symbol α) : Symbol α :=
  { s with
    rules := if i = parent then OrderedSet.insert s.rules rule else s.rules
    parents := if i ∈ rule then OrderedSet.insert s.parents parent else s.parents }

/-- The symbol at position `i` after `rule` was taken out at `parent`, which keeps the rules
`kept`. The parent stays a parent of each symbol that a kept rule contains. -/
def withoutRule (parent : Nat) (rule : List Nat) (kept : List (List Nat)) (i : Nat)
    (s : Symbol α) : Symbol α :=
  { s with
    rules := if i = parent then kept else s.rules
    parents :=
      if i ∈ rule && !kept.any (i ∈ ·) then s.parents.erase parent else s.parents }

end Symbol

namespace Grammar

/-- The index of the next symbol and the grammar with that symbol. -/
def append (g : Grammar α) (id : Ident α) (terminal : Bool) : Nat × Grammar α :=
  (g.width.wrap g.symbols.length,
    { g with symbols := g.symbols ++ [{ id := id, isTerminal := terminal }] })

/-- As `append`, for an identity that must be new, if there is an index left for it. -/
def push [DecidableEq α] (g : Grammar α) (id : Ident α) (terminal : Bool) :
    Except Fault (Nat × Grammar α) :=
  if g.width.max ≤ g.symbols.length then .error .indexSpaceFull
  else if g.symbols.any (·.id = id) then .error .duplicateSymbol
  else .ok (g.append id terminal)

/-- The next value of a 32-bit counter. -/
def nextCount (n : Nat) : Except Fault Nat :=
  if n < 0xFFFFFFFF then .ok (n + 1) else .error .namespaceExhausted

def pushSynthetic [DecidableEq α] (g : Grammar α) : Except Fault (Nat × Grammar α) := do
  let next ← nextCount g.nextSynthetic
  { g with nextSynthetic := next }.push (.synthetic g.nextSynthetic) false

def pushStart [DecidableEq α] (g : Grammar α) : Except Fault (Nat × Grammar α) := do
  let next ← nextCount g.nextStart
  { g with nextStart := next }.push (.start g.nextStart) false

def withRule (g : Grammar α) (parent : Nat) (rule : List Nat) : Grammar α :=
  { g with symbols := g.symbols.mapIdx (Symbol.withRule parent rule) }

/-- Puts a rule in at the end of the parent's rules, if it is not there. -/
def insertRule (g : Grammar α) (parent : Nat) (rule : List Nat) :
    Trail Record (Grammar α) := do
  let s ← g.symbol parent
  if s.isTerminal then Trail.fault .ruleOnTerminal
  else if rule.isEmpty then Trail.fault .emptyRule
  else do
    Trail.record (.adding parent rule)
    if rule.all (· < g.symbols.length) then pure (g.withRule parent rule)
    else Trail.fault .outOfRange

def withoutRule (g : Grammar α) (parent : Nat) (rule : List Nat) : Grammar α :=
  { g with
    symbols := g.symbols.mapIdx
      (Symbol.withoutRule parent rule ((g.rules parent).erase rule)) }

/-- Takes a rule out that is there; the rest keep their order. -/
def removeRule (g : Grammar α) (parent : Nat) (rule : List Nat) :
    Trail Record (Grammar α) := do
  let s ← g.symbol parent
  if !s.rules.contains rule then Trail.fault .missingRule
  else if !rule.all (· < g.symbols.length) then Trail.fault .outOfRange
  else do
    Trail.record (.removed parent rule)
    pure (g.withoutRule parent rule)

end Grammar

end Chomsky
