import Chomsky.Chart
import Chomsky.Ordered
import Chomsky.Tree

/-!
Parse forests: for each span of an accepted word, the symbols that derive it with all reasons for
it, in the order in which they were found. Trees are counted without building them, and listed no
more than wanted. A forest read from bytes may lack cells or point anywhere.
-/

namespace Chomsky

structure Forest where
  len : Nat
  cells : Array (List (Nat × List Pointer))
  roots : List Nat
  deriving DecidableEq

namespace Forest

variable {α : Type}

/-- No root derives the word: it was rejected. -/
def isEmpty (f : Forest) : Bool := f.roots.isEmpty

def addEntry (len : Nat) (cells : Array (List (Nat × List Pointer))) (e : Entry) :
    Except Fault (Array (List (Nat × List Pointer))) := do
  let i ← Triangle.offset len e.row e.col
  if i < cells.size then
    pure (cells.modify i (OrderedMap.alter e.symbol fun ps => ps.getD [] ++ [e.pointer]))
  else .error .outOfRange

def cellAt (f : Forest) (row col : Nat) : Except Fault (List (Nat × List Pointer)) := do
  let i ← Triangle.offset f.len row col
  required f.cells[i]?

/-- The forest of a filled chart, which is left without cells if the word was rejected. -/
def ofChart (c : NormalGrammar α) (t : Chart) (entries : List Entry) : Except Fault Forest := do
  if ← t.accepts then
    let size ← Triangle.size t.len
    let cells ← entries.foldlM (addEntry t.len) (Array.replicate size [])
    let whole : Forest := ⟨t.len, cells, []⟩
    let top ← whole.cellAt (t.len - 1) 0
    let roots ← (top.map (·.1)).filterM c.isRoot
    pure { whole with roots := roots }
  else pure ⟨t.len, #[], []⟩

/-- The reasons for a symbol to derive a span; none if the word was rejected or does not have
the span. -/
def pointers (f : Forest) (row col symbol : Nat) : Except Fault (List Pointer) :=
  if !f.isEmpty && Triangle.Contains f.len row col then do
    let cell ← f.cellAt row col
    pure ((OrderedMap.get? cell symbol).getD [])
  else .ok []

/-! ### Counting the trees

The counts of all symbols of a span follow from those of shorter spans. Counts stay at the end of
the 64-bit range. -/

/-- The counts of the spans so far, beside the cells of the forest. -/
abbrev Counts := Array (List Nat)

/-- A symbol that does not derive the span has no trees. -/
def countAt (f : Forest) (counts : Counts) (row col symbol : Nat) : Except Fault Nat := do
  let i ← Triangle.offset f.len row col
  let cell ← required f.cells[i]?
  match cell.findIdx? (·.1 = symbol) with
  | none => pure 0
  | some k => do
    let ns ← required counts[i]?
    required ns[k]?

def countPointer (f : Forest) (counts : Counts) (row col : Nat) :
    Pointer → Except Fault Nat
  | .terminal _ => .ok 1
  | .split after left right => do
    let (l, r) ← Triangle.parts row col after
    let m ← f.countAt counts l.1 l.2 left
    let n ← f.countAt counts r.1 r.2 right
    pure (Size.satMul m n)

def countPointers (f : Forest) (counts : Counts) (row col : Nat) (ps : List Pointer) :
    Except Fault Nat :=
  ps.foldlM (fun n p => do
    let m ← f.countPointer counts row col p
    pure (Size.satAdd n m)) 0

def countCell (f : Forest) (counts : Counts) (span : Nat × Nat) : Except Fault Counts := do
  let cell ← f.cellAt span.1 span.2
  let ns ← cell.mapM fun s => f.countPointers counts span.1 span.2 s.2
  pure (counts.push ns)

/-- The number of trees of the whole word. A forest with roots needs all cells of its length;
that is looked at first, because the length may be much greater than the forest. -/
def count (f : Forest) : Except Fault Nat :=
  if f.isEmpty then .ok 0
  else if f.cells.size < f.len * (f.len + 1) / 2 then .error .outOfRange
  else do
    let counts ← (Triangle.cells f.len).foldlM f.countCell #[]
    let top ← Size.sub f.len 1
    f.roots.foldlM (fun n s => do
      let m ← f.countAt counts top 0 s
      pure (Size.satAdd n m)) 0

/-! ### Listing the trees

The trees of a symbol over a span come reason by reason; for a pair, the left tree changes
slowest. -/

/-- The first `room` trees with a left and a right subtree from two lists. -/
def pairTrees (symbol room : Nat) (lefts rights : List Tree) : List Tree :=
  match lefts with
  | [] => []
  | l :: ls =>
    let first := (rights.take room).map fun r => Tree.node symbol [l, r]
    first ++ pairTrees symbol (room - first.length) ls rights

/-- Goes through `xs` while there is room for further trees. -/
def collect {β : Type} (find : Nat → β → Except Fault (List Tree)) :
    Nat → List β → Except Fault (List Tree)
  | _, [] => .ok []
  | room, x :: xs => do
    let ts ← find room x
    if ts.length = room then pure ts
    else do
      let us ← collect find (room - ts.length) xs
      pure (ts ++ us)

/-- The first `room` trees of a symbol over a span, for a `room` of at least 1. -/
def treesAt (f : Forest) (row col symbol room : Nat) : Except Fault (List Tree) := do
  let ps ← f.pointers row col symbol
  collect (fun room p =>
    match p with
    | .terminal t => .ok [Tree.node symbol [Tree.leaf t col]]
    | .split after left right =>
      match _h : Triangle.parts row col after with
      | .error e => .error e
      | .ok (l, r) => do
        let lefts ← treesAt f l.1 l.2 left room
        let rights ← treesAt f r.1 r.2 right room
        pure (pairTrees symbol room lefts rights)) room ps
termination_by row
decreasing_by
  · exact (Triangle.parts_lt _h).1
  · exact (Triangle.parts_lt _h).2

/-- The first `limit` trees of the whole word. -/
def treesUpTo (f : Forest) (limit : Nat) : Except Fault (List Tree) :=
  if limit = 0 then .ok []
  else collect (fun room root => do
    let top ← Size.sub f.len 1
    f.treesAt top 0 root room) limit f.roots

def trees (f : Forest) : Except Fault (List Tree) := f.treesUpTo Size.max

end Forest

end Chomsky
