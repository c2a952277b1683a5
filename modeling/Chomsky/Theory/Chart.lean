import Chomsky.Chart

/-!
Charts beside other ways to fill them: a plain search for all entries without parent sets, and one
loop that writes a set over for all pairs and counts its entries on the way. Last, what it means
that a loop lays out the cells of a triangle as their offsets say.
-/

namespace Chomsky

variable {α γ : Type}

/-! ### The plain search

Every split, every pair of symbols found before, and every symbol in turn. -/

namespace Search

/-- The symbols below `n` with an entry for a span, in ascending order. -/
def found (es : List Entry) (n row col : Nat) : List Nat :=
  (List.range n).filter fun p => es.any fun e => e.row = row && e.col = col && e.symbol = p

def owners (c : NormalGrammar α) (rule : NormalRule) : List Nat :=
  (List.range c.tags.size).filter fun p => (c.rules[p]?.getD []).contains rule

def terminalEntries (c : NormalGrammar α) (input : List (Option Nat)) (col : Nat) :
    List Entry :=
  match input[col]?.join with
  | none => []
  | some t => (owners c (.terminal t)).map fun p => ⟨0, col, p, .terminal t⟩

def splitEntries (c : NormalGrammar α) (es : List Entry) (row col : Nat) : List Entry :=
  (List.range' 1 row).flatMap fun k =>
    (found es c.tags.size (k - 1) col).flatMap fun l =>
      (found es c.tags.size (row - k) (col + k)).flatMap fun r =>
        (owners c (.pair l r)).map fun p => ⟨row, col, p, .split k l r⟩

def entries (c : NormalGrammar α) (input : List (Option Nat)) : List Entry :=
  (Triangle.cells input.length).foldl (fun es span =>
    es ++ if span.1 = 0 then terminalEntries c input span.2
      else splitEntries c es span.1 span.2) []

/-- The entries for a symbol over a span, in the order in which they were made. -/
def entriesFor (es : List Entry) (row col p : Nat) : List Entry :=
  es.filter fun e => e.row = row && e.col = col && e.symbol = p

end Search

/-- What it takes to fill the chart of an input: a size for the number of its cells, and a number
for each of its entries. -/
structure Chart.Countable (c : NormalGrammar α) (input : List (Option Nat)) : Prop where
  cells : input.length * (input.length + 1) ≤ Size.max
  entries : (Search.entries c input).length ≤ maxEntries

instance (c : NormalGrammar α) (input : List (Option Nat)) :
    Decidable (Chart.Countable c input) :=
  decidable_of_iff (_ ∧ _) ⟨fun h => ⟨h.1, h.2⟩, fun h => ⟨h.cells, h.entries⟩⟩

/-! ### One loop with what it keeps

The set for the shared parents is made once and written over for each pair, so it still holds the
candidates of the pair before. The counter of entries goes up with each entry. -/

namespace Chart

/-- What the loop keeps from one cell to the next: the set that is written over, and the number of
the entries made. -/
structure Kept where
  shared : BitSet
  entries : Nat

/-- Before the first entry. -/
def Kept.blank (c : NormalGrammar α) : Kept := ⟨BitSet.empty c.size, 0⟩

def Kept.next (k : Kept) : Except Fault Kept :=
  if k.entries < maxEntries then .ok { k with entries := k.entries + 1 }
  else .error .counterFull

end Chart

/-! ### Loops over a triangle -/

namespace Triangle

/-- The offset of a cell over all numbers, where nothing overflows. -/
def place (len : Nat) (x : Nat × Nat) : Nat := x.1 * len - x.1 * (x.1 - 1) / 2 + x.2

/-- The loop that has `step` as its body goes through the cells from an empty array on. -/
structure LaysOut (len : Nat) (step : Array γ → Nat × Nat → Except Fault (Array γ)) : Prop where
  /-- A step puts one value at the end. -/
  push : ∀ a x a', step a x = .ok a' → ∃ v, a' = a.push v
  /-- The end is the place of the cell whose turn it is. -/
  turn : ∀ before x after a, cells len = before ++ x :: after →
    before.foldlM step #[] = .ok a → a.size = place len x
  /-- The value follows from what lies at smaller places. -/
  reads : ∀ x a b, Contains len x.1 x.2 → (∀ k < place len x, a[k]? = b[k]?) →
    (step a x).map Array.back? = (step b x).map Array.back?

end Triangle

end Chomsky
