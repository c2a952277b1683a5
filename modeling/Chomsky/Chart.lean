import Chomsky.BitSet
import Chomsky.NormalGrammar.Basic
import Chomsky.Record
import Chomsky.Trail
import Chomsky.Triangle

/-!
Charts: for each span of a word, the set of non-terminals that derive it. The cells of a chart lie
as `Triangle` says.

A chart is filled with the shorter spans first. Every reason for a symbol to be in a cell is an
entry in the trail, so a symbol has as many entries in a cell as there are reasons. The candidates
for a pair are the symbols that are parents of both of its members.
-/

namespace Chomsky

/-- Why a non-terminal derives a span: by a rule for the terminal at its only position, or by a
pair of which the left symbol derives its first `after` positions and the right one the rest. -/
inductive Pointer where
  | terminal (t : Nat)
  | split (after left right : Nat)
  deriving DecidableEq, Repr

/-- A symbol found to derive a span, for one reason. -/
structure Entry where
  row : Nat
  col : Nat
  symbol : Nat
  pointer : Pointer
  deriving DecidableEq, Repr

structure Chart where
  len : Nat
  cells : Array BitSet
  /-- The symbols with the root tag. -/
  roots : BitSet

namespace Chart

def cellAt (len : Nat) (cells : Array BitSet) (row col : Nat) : Except Fault BitSet := do
  let i ← Triangle.offset len row col
  required cells[i]?

def cell (t : Chart) (row col : Nat) : Except Fault BitSet :=
  cellAt t.len t.cells row col

/-- Spans that the word does not have contain nothing. -/
def contains (t : Chart) (row col symbol : Nat) : Except Fault Bool :=
  if Triangle.Contains t.len row col then do
    let s ← t.cell row col
    s.test symbol
  else .ok false

/-- Whether a root derives the whole word. The empty word is never accepted. -/
def accepts (t : Chart) : Except Fault Bool :=
  if t.len = 0 then .ok false
  else do
    let top ← t.cell (t.len - 1) 0
    let found ← top.inter t.roots
    pure !found.elements.isEmpty

/-! ### Filling -/

variable {α : Type}

/-- The entry is made before the symbol is put into the cell. -/
def place (e : Entry) (cell : BitSet) : Trail Entry BitSet := do
  Trail.record e
  cell.insert e.symbol

def placeIf (found : Bool) (e : Entry) (cell : BitSet) : Trail Entry BitSet :=
  if found then place e cell else pure cell

/-- The cell of one position, where `none` is a symbol that the grammar does not know. -/
def terminalCell (c : NormalGrammar α) (col : Nat) (symbol? : Option Nat) :
    Trail Entry BitSet :=
  match symbol?.filter (· < c.size) with
  | none => pure (BitSet.empty c.size)
  | some t => do
    let parents ← c.parentsOf t
    let cell ← (parents.elements.map c.width.wrap).foldlM (fun cell p => do
      let found ← c.hasRule p (.terminal t)
      placeIf found ⟨0, col, p, .terminal t⟩ cell) (BitSet.empty c.size)
    parents.checkWords
    pure cell

/-- All symbols with a rule for the pair `l r`. -/
def placePair (c : NormalGrammar α) (row col after : Nat) (cell : BitSet) (l r : Nat) :
    Trail Entry BitSet := do
  let shared ← c.sharedParents l r
  shared.elements.foldlM (fun cell p => do
    let found ← c.hasRule p (.pair l r)
    placeIf found ⟨row, col, p, .split after l r⟩ cell) cell

def placeSplit (c : NormalGrammar α) (len : Nat) (cells : Array BitSet) (row col : Nat)
    (cell : BitSet) (after : Nat) : Trail Entry BitSet := do
  let (l, r) ← Triangle.parts row col after
  let left ← cellAt len cells l.1 l.2
  let right ← cellAt len cells r.1 r.2
  left.elements.foldlM (fun cell l =>
    right.elements.foldlM (fun cell r => placePair c row col after cell l r) cell) cell

/-- The cell of more than one position. -/
def splitCell (c : NormalGrammar α) (len : Nat) (cells : Array BitSet) (row col : Nat) :
    Trail Entry BitSet :=
  (List.range' 1 row).foldlM (placeSplit c len cells row col) (BitSet.empty c.size)

def fillCell (c : NormalGrammar α) (input : List (Option Nat)) (cells : Array BitSet)
    (span : Nat × Nat) : Trail Entry (Array BitSet) := do
  let cell ←
    if span.1 = 0 then terminalCell c span.2 input[span.2]?.join
    else splitCell c input.length cells span.1 span.2
  pure (cells.push cell)

def rootSet (c : NormalGrammar α) : Except Fault BitSet :=
  c.indices.foldlM (fun s i => do
    if ← c.isRoot i then s.insert i else pure s) (BitSet.empty c.size)

/-- All entries, however many there are. -/
def fillAll (c : NormalGrammar α) (input : List (Option Nat)) : Trail Entry Chart := do
  let roots ← rootSet c
  let _ ← Triangle.size input.length
  let cells ← (Triangle.cells input.length).foldlM (fillCell c input) #[]
  pure ⟨input.length, cells, roots⟩

/-- The greatest number that the counter of entries can hold, which has 32 bits and a sign. -/
def maxEntries : Nat := 0x7FFFFFFF

/-- Each entry is counted after it was made. -/
def fill (c : NormalGrammar α) (input : List (Option Nat)) : Trail Entry Chart :=
  (fillAll c input).counted maxEntries

end Chart

/-- Only pairs are reported one by one. -/
def Entry.report : Entry → List Record
  | ⟨_, _, _, .terminal _⟩ => []
  | ⟨row, col, p, .split after l r⟩ => [.split row col p l r after]

/-- The chart of a word with its entries, reported as they are found. -/
def Chart.ofInput {α : Type} (c : NormalGrammar α) (input : List (Option Nat)) :
    Trail Record (Chart × List Entry) := do
  let run := Chart.fill c input
  let chart ← run.reportAs Entry.report
  Trail.record (.filled input.length run.records.length.toInt32)
  pure (chart, run.records)

end Chomsky
