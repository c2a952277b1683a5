/-!
The ways in which an operation can break off, and the checks that every part of the library makes:
that a value is there, and that a size stays a size. A fault is never an answer about a grammar or
a word: it says that an operation was used outside its domain or that a bound of the representation
was met.
-/

namespace Chomsky

inductive Fault where
  /-- The grammar already has as many symbols as its index width can number. -/
  | indexSpaceFull
  | duplicateSymbol
  /-- The counter of created symbols has no next value. -/
  | namespaceExhausted
  | ruleOnTerminal
  | emptyRule
  | missingRule
  /-- A snapshot was asked of a grammar that is not in normal form. -/
  | notNormal
  /-- A symbol, a cell or a word of a bit set that is not there. -/
  | outOfRange
  /-- Bit sets of different sizes were combined. -/
  | sizeMismatch
  /-- A size left the range of 64 bits. -/
  | overflow
  /-- The counter of the entries of a chart has no next value. -/
  | counterFull
  deriving DecidableEq, Repr

/-- Only a full index space is explained to the caller. -/
def Fault.message? : Fault → Option String
  | .indexSpaceFull => some "StorageT is not big enough to store this grammar's symbols."
  | _ => none

/-- A value that must be there: an element at a position of a list, a cell of a table. -/
def required {α : Type} : Option α → Except Fault α
  | some a => .ok a
  | none => .error .outOfRange

@[simp] theorem required_eq_ok {α : Type} {x : Option α} {a : α} :
    required x = .ok a ↔ x = some a := by
  cases x <;> simp [required]

/-! ### Sizes

Sizes and positions are 64-bit numbers. The checked operations refuse a result outside that
range; the saturating ones, used for counting trees, stay at its end. -/

namespace Size

def max : Nat := 0xFFFFFFFFFFFFFFFF

def add (a b : Nat) : Except Fault Nat :=
  if a + b ≤ max then .ok (a + b) else .error .overflow

def sub (a b : Nat) : Except Fault Nat :=
  if b ≤ a then .ok (a - b) else .error .overflow

def mul (a b : Nat) : Except Fault Nat :=
  if a * b ≤ max then .ok (a * b) else .error .overflow

def satAdd (a b : Nat) : Nat := min (a + b) max

def satMul (a b : Nat) : Nat := min (a * b) max

theorem add_of_le {a b : Nat} (h : a + b ≤ max) : add a b = .ok (a + b) := if_pos h

theorem sub_of_le {a b : Nat} (h : b ≤ a) : sub a b = .ok (a - b) := if_pos h

theorem mul_of_le {a b : Nat} (h : a * b ≤ max) : mul a b = .ok (a * b) := if_pos h

end Size

end Chomsky
