import Chomsky.Grammar.Rules

/-!
Building a grammar by the names of its symbols. Each request is checked in full before anything
is changed or reported; a refused one says the reason and the name at fault.
-/

namespace Chomsky

inductive Reason where
  | duplicateSymbol
  | unknownParent
  | parentIsTerminal
  | unknownMember
  | emptyRule
  | unknownSymbol
  | tooManySymbols
  deriving DecidableEq, Repr

def Reason.text : Reason → String
  | .duplicateSymbol => "Duplicate symbol"
  | .unknownParent => "Unknown parent symbol"
  | .parentIsTerminal => "Terminal symbols cannot have rules"
  | .unknownMember => "Rule references an unknown symbol"
  | .emptyRule => "Empty rules are not supported"
  | .unknownSymbol => "Unknown symbol"
  | .tooManySymbols => "Too many symbols for StorageT to declare"

structure Rejection (α : Type) where
  reason : Reason
  name : Option α
  deriving DecidableEq

def Rejection.message {α : Type} [Label α] (r : Rejection α) : String :=
  match r.name with
  | some a => r.reason.text ++ " " ++ Label.quoted a
  | none => r.reason.text

namespace Grammar

variable {α : Type}

def withTag (g : Grammar α) (i : Nat) (tag : α) : Grammar α :=
  { g with symbols := g.symbols.modify i ({ · with tag := some tag }) }

variable [DecidableEq α]

/-- A grammar with a start symbol and nothing else. A width whose greatest index is no size is
refused. -/
def create (width : Width) (start : α) : Except Fault (Grammar α) :=
  if 64 < width.bits then .error .overflow
  else do
    let empty : Grammar α := { width := width, symbols := [], start := 0 }
    let (i, g) ← empty.push (.user start) false
    pure { g with start := i }

/-- Adds a symbol and gives its index. -/
def declare (g : Grammar α) (name : α) (terminal : Bool) :
    Except (Rejection α) (Nat × Grammar α) :=
  if (g.index? name).isSome then .error ⟨.duplicateSymbol, name⟩
  else if g.width.max ≤ g.symbols.length then .error ⟨.tooManySymbols, name⟩
  else .ok (g.append (.user name) terminal)

def resolve (g : Grammar α) : List α → Except (Rejection α) (List Nat)
  | [] => .ok []
  | a :: as =>
    match g.index? a with
    | none => .error ⟨.unknownMember, a⟩
    | some i => (g.resolve as).map (i :: ·)

/-- The rule with these members. A rule without members is refused under the caller's name for
its parent, if there is one. -/
def resolveRule (g : Grammar α) (parent : Nat) (members : List α) :
    Except (Rejection α) (List Nat) :=
  if members.isEmpty then .error ⟨.emptyRule, g.symbols[parent]?.bind (·.id.name?)⟩
  else g.resolve members

def addRule (g : Grammar α) (parent : α) (members : List α) :
    Except (Rejection α) (Trail Record (Grammar α)) :=
  match g.index? parent with
  | none => .error ⟨.unknownParent, parent⟩
  | some i =>
    if g.isTerminal i then .error ⟨.parentIsTerminal, parent⟩
    else (g.resolveRule i members).map (g.insertRule i)

/-- Adds a rule to the current start symbol, which need not be the one that the caller named. -/
def addRuleToStart (g : Grammar α) (members : List α) :
    Except (Rejection α) (Trail Record (Grammar α)) :=
  (g.resolveRule g.start members).map (g.insertRule g.start)

/-- A tag takes the place of an earlier one. -/
def assignTag (g : Grammar α) (name tag : α) : Except (Rejection α) (Grammar α) :=
  match g.index? name with
  | none => .error ⟨.unknownSymbol, name⟩
  | some i => .ok (g.withTag i tag)

end Grammar

end Chomsky
